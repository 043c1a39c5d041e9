import Manifest.Proofs.Xml.Qualify
import Manifest.Proofs.Xml.Reading

/-! What is in force. Where everything that a tag names has a declaration in force no prefix is made up
for it, and its names are written under the first prefixes that stand for their namespaces. -/

set_option autoImplicit false

namespace Manifest.Xml

/-- Whether two scopes say the same of every prefix. -/
def Scope.Agrees (a b : Scope) : Prop :=
  ∀ pfx, a.stands? pfx = b.stands? pfx

theorem Scope.Agrees.refl (a : Scope) : a.Agrees a :=
  fun _ => rfl

theorem Scope.Agrees.symm {a b : Scope} (h : a.Agrees b) : b.Agrees a :=
  fun pfx => (h pfx).symm

theorem Scope.Agrees.trans {a b c : Scope} (h : a.Agrees b) (h' : b.Agrees c) : a.Agrees c :=
  fun pfx => (h pfx).trans (h' pfx)

theorem Scope.Agrees.append {a b : Scope} (h : a.Agrees b) (bindings : List Binding) :
    Scope.Agrees (bindings ++ a) (bindings ++ b) := by
  intro pfx
  rw [stands?_append, stands?_append, h pfx]

/-- Whether a scope says all that another one says, and the same of names without a prefix. -/
structure Scope.Covers (scope origin : Scope) : Prop where
  stands : ∀ {pfx u}, origin.stands? pfx = some u → scope.stands? pfx = some u
  unprefixed : scope.stands? none = origin.stands? none

theorem Scope.Agrees.covers {a b : Scope} (h : a.Agrees b) : a.Covers b :=
  ⟨fun hu => (h _).trans hu, h none⟩

theorem Scope.Covers.trans {a b c : Scope} (h : a.Covers b) (h' : b.Covers c) : a.Covers c :=
  ⟨fun hu => h.stands (h'.stands hu), h.unprefixed.trans h'.unprefixed⟩

theorem Scope.Covers.append {a b : Scope} (h : a.Covers b) (bindings : List Binding) :
    Scope.Covers (bindings ++ a) (bindings ++ b) := by
  refine ⟨fun {pfx u} hu => ?_, ?_⟩
  · rw [stands?_append] at hu ⊢
    split
    · next hc => rwa [if_pos hc] at hu
    · next hc =>
      rw [if_neg hc] at hu
      exact h.stands hu
  · rw [stands?_append, stands?_append, h.unprefixed]

/-- The declarations in front of a scope are in force. -/
theorem stands?_of_mem {bindings : List Binding} (hdistinct : (bindings.map Binding.pfx).Nodup)
    {b : Binding} (hb : b ∈ bindings) (hxml : b.pfx ≠ some "xml") (outer : Scope) :
    Scope.stands? (bindings ++ outer) b.pfx = some b.uri := by
  have hfirst := uri?_of_mem hdistinct hb
  rw [stands?_append, hfirst, Option.isSome_some, Bool.true_or, if_pos rfl, stands?_eq_uri? hxml,
    hfirst]

/-- A declaration that is in force changes nothing where it is repeated. -/
theorem Scope.agrees_cons {scope : Scope} {b : Binding} (h : scope.stands? b.pfx = some b.uri) :
    Scope.Agrees (b :: scope) scope := by
  intro pfx
  have hsplit := stands?_append [b] scope pfx
  rw [List.singleton_append] at hsplit
  rw [hsplit]
  split
  · next hc =>
    rw [Bool.or_eq_true, beq_iff_eq] at hc
    rcases hc with hc | rfl
    · rw [Scope.uri?, List.find?_singleton] at hc
      split at hc
      · next hp =>
        rw [beq_iff_eq] at hp
        subst hp
        rw [h]
        by_cases hxml : b.pfx = some "xml"
        · rw [hxml, stands?_xml] at h
          rw [hxml, stands?_xml, h]
        · rw [stands?_eq_uri? hxml, Scope.uri?, List.find?_singleton]
          simp
      · cases hc
    · rfl
  · rfl

/-- Declaring once more what is in force changes nothing. -/
theorem Scope.agrees_insert {bindings : List Binding} {scope : Scope} {b : Binding}
    (h : Scope.stands? (bindings ++ scope) b.pfx = some b.uri) :
    Scope.Agrees (bindings ++ b :: scope) (bindings ++ scope) := by
  intro pfx
  rw [stands?_append, stands?_append]
  split
  · rfl
  · next hc =>
    by_cases hp : b.pfx = pfx
    · subst hp
      rw [stands?_append, if_neg hc] at h
      exact Scope.agrees_cons h b.pfx
    · have hsplit := stands?_append [b] scope pfx
      have hnone : Scope.uri? [b] pfx = none := by
        rw [uri?_eq_none_iff]
        intro x hx
        rw [List.mem_singleton] at hx
        rw [hx]
        exact hp
      rw [Bool.or_eq_true, not_or] at hc
      rw [List.singleton_append, hnone, Option.isSome_none, Bool.false_or, if_neg hc.2] at hsplit
      exact hsplit

/-- Declarations that only repeat what is in force can be left out. -/
theorem Scope.agrees_filter {bindings : List Binding} {outer : Scope}
    (hdistinct : (bindings.map Binding.pfx).Nodup) (hxml : ∀ b ∈ bindings, b.pfx ≠ some "xml") :
    Scope.Agrees ((bindings.filter fun b => outer.uri? b.pfx != some b.uri) ++ outer)
      (bindings ++ outer) := by
  induction bindings with
  | nil => exact Scope.Agrees.refl _
  | cons b bindings ih =>
    rw [List.map_cons, List.nodup_cons] at hdistinct
    have hrest := ih hdistinct.2 fun x hx => hxml x (by simp [hx])
    have hfirst := stands?_cons (hxml b (by simp))
    intro pfx
    rw [List.cons_append, hfirst, List.filter_cons]
    split
    · rw [List.cons_append, hfirst, hrest pfx]
    · next hc =>
      -- the declaration is in force outside, and no other one of the tag is for its prefix
      have hin : outer.uri? b.pfx = some b.uri := by simpa using hc
      rw [hrest pfx]
      split
      · next hp =>
        subst hp
        have hnone : Scope.uri? bindings b.pfx = none := by
          rw [uri?_eq_none_iff]
          intro x hx hp
          exact hdistinct.1 (hp ▸ List.mem_map_of_mem hx)
        rw [stands?_append, hnone, if_neg (by simpa using hxml b (by simp)),
          stands?_eq_uri? (hxml b (by simp)), hin]
      · rfl

/-! Names with their namespaces in front. -/

theorem toList_attributeKey (uri name : String) :
    (attributeKey uri name).toList = '\x7b' :: (uri.toList ++ '\x7d' :: name.toList) := by
  simp [attributeKey]

theorem not_isLocalName_of_mem {c : Char} (hc : isNameChar c = false) {name : List Char}
    (h : c ∈ name) : isLocalName name = false := by
  cases hl : isLocalName name with
  | false => rfl
  | true =>
    rw [List.all_eq_true.mp (all_isNameChar_of_isLocalName hl) c h] at hc
    cases hc

theorem takeWhile_bracket {cs rest : List Char} (h : '\x7d' ∉ cs) :
    (cs ++ '\x7d' :: rest).takeWhile (· != '\x7d') = cs := by
  rw [List.takeWhile_append_of_pos, List.takeWhile_cons_of_neg (by simp), List.append_nil]
  intro c hc
  rw [bne_iff_ne]
  rintro rfl
  exact h hc

theorem tagKey_some {uri : String} (h : uri ≠ "") (name : String) :
    tagKey (some uri) name = attributeKey uri name := by
  rw [tagKey, if_neg]
  rw [String.isEmpty_iff]
  exact h

/-- What a key is read as if its namespace holds no bracket. -/
theorem parse?_attributeKey {uri name : String} (hs : isDocumentText (attributeKey uri name) = true)
    (hne : uri ≠ "") (hmem : '\x7d' ∉ uri.toList) :
    ExpandedName.parse? (attributeKey uri name) =
      if isLocalName name.toList then some ⟨some uri, name⟩ else none := by
  have hnil : uri.toList.isEmpty = false := by
    cases hl : uri.toList with
    | nil => exact absurd (String.toList_eq_nil_iff.mp hl) hne
    | cons c cs => rfl
  rw [parse?_brace hs (toList_attributeKey uri name), takeWhile_bracket hmem, List.drop_left, hnil]
  dsimp only
  rw [String.ofList_toList, String.ofList_toList]
  rfl

/-- A name is read with the namespace and the local name that its key was made of. -/
theorem eq_of_parse?_tagKey {uri : Option String} {name : String} (huri : ∀ u ∈ uri, u ≠ "")
    (hname : name.toList.head? ≠ some '\x7b') {x : ExpandedName}
    (h : ExpandedName.parse? (tagKey uri name) = some x) : x = ⟨uri, name⟩ := by
  have hs : isDocumentText (tagKey uri name) = true := by
    rw [ExpandedName.parse?] at h
    split at h
    · cases h
    · next hs => simpa using hs
  cases uri with
  | none =>
    rw [tagKey] at h hs
    rw [parse?_plain hs hname] at h
    split at h
    · cases h
      rfl
    · cases h
  | some u =>
    have hne := huri u rfl
    rw [tagKey_some hne] at h hs
    by_cases hmem : '\x7d' ∈ u.toList
    · -- the local part would hold the bracket
      exfalso
      obtain ⟨front, back, hsplit, hfront⟩ := List.eq_append_cons_of_mem hmem
      have hlist : (attributeKey u name).toList =
          '\x7b' :: (front ++ '\x7d' :: (back ++ '\x7d' :: name.toList)) := by
        rw [toList_attributeKey, hsplit, List.append_assoc, List.cons_append]
      rw [parse?_brace hs hlist, takeWhile_bracket hfront, List.drop_left] at h
      dsimp only at h
      rw [not_isLocalName_of_mem (c := '\x7d') (by decide) (by simp), if_neg (by simp)] at h
      cases h
    · rw [parse?_attributeKey hs hne hmem] at h
      split at h
      · cases h
        rfl
      · cases h

theorem isDocumentText_append {a b : String} :
    isDocumentText (a ++ b) = (isDocumentText a && isDocumentText b) := by
  rw [isDocumentText, String.toList_append, List.all_append]
  rfl

/-- A sound name is read from its key. -/
theorem ExpandedName.Sound.parse?_tagKey {x : ExpandedName} (h : x.Sound) :
    ExpandedName.parse? (tagKey x.uri x.name) = some x := by
  obtain ⟨uri, name⟩ := x
  cases uri with
  | none =>
    have hhead : name.toList.head? ≠ some '\x7b' := by
      intro hhead
      have hmem := List.mem_of_mem_head? hhead
      have hno := not_isLocalName_of_mem (c := '\x7b') (by decide) hmem
      rw [h.isLocal] at hno
      cases hno
    rw [tagKey, parse?_plain h.isText hhead, if_pos h.isLocal]
  | some u =>
    obtain ⟨hne, htext, hmem⟩ := h.uri u rfl
    have hs : isDocumentText (attributeKey u name) = true := by
      have hname : isDocumentText name = true := h.isText
      rw [attributeKey, isDocumentText_append, isDocumentText_append, isDocumentText_append, htext,
        hname]
      decide
    rw [tagKey_some hne, parse?_attributeKey hs hne hmem, if_pos h.isLocal]

/-! Declarations that a tag makes. -/

/-- A declaration that a tag can make. -/
structure Allowed (b : Binding) : Prop where
  notXml : b.pfx ≠ some "xml"
  notXmlns : b.pfx ≠ some "xmlns"
  someUri : b.pfx ≠ none → b.uri ≠ ""
  notXmlUri : b.uri ≠ xmlUri
  notXmlnsUri : b.uri ≠ xmlnsUri

/-- A declaration that a tag can make and that says something new in a scope. -/
structure Declares (outer : Scope) (b : Binding) : Prop extends Allowed b where
  isNew : outer.stands? b.pfx ≠ some b.uri

/-- No prefix that a tag can declare is the one that declarations have. -/
theorem stands?_xmlns_append {bindings : List Binding} {outer : Scope}
    (hb : ∀ b ∈ bindings, Allowed b) (h : outer.stands? (some "xmlns") = none) :
    Scope.stands? (bindings ++ outer) (some "xmlns") = none := by
  have hnone : Scope.uri? bindings (some "xmlns") = none := by
    rw [uri?_eq_none_iff]
    exact fun b hx => (hb b hx).notXmlns
  rw [stands?_append, hnone, if_neg (by decide), h]

theorem isSome_binding? {scope : Scope} {uri : String} (needsPrefix : Bool) {pfx : Option String}
    (hpfx : needsPrefix = true → pfx.isSome = true) (h : scope.stands? pfx = some uri) :
    ∃ b, scope.binding? uri needsPrefix = some b := by
  cases hb : scope.binding? uri needsPrefix with
  | some b => exact ⟨b, rfl⟩
  | none => exact absurd h ((binding?_eq_none hb).2 pfx hpfx)

namespace Naming

/-- A tag makes those of its declarations that say something new. -/
theorem foldl_declare {outer : Scope} {next : Nat} {front bindings : List Binding}
    (hdistinct : ((front ++ bindings).map Binding.pfx).Nodup)
    (hxml : ∀ b ∈ bindings, b.pfx ≠ some "xml") :
    bindings.foldl declare ⟨front, outer, next⟩ =
      ⟨front ++ bindings.filter fun b => outer.stands? b.pfx != some b.uri, outer, next⟩ := by
  induction bindings generalizing front with
  | nil => rw [List.filter_nil, List.append_nil, List.foldl_nil]
  | cons b bindings ih =>
    have hrest : ∀ x ∈ bindings, x.pfx ≠ some "xml" := fun x hx => hxml x (by simp [hx])
    have hfree : Scope.uri? front b.pfx = none := by
      rw [uri?_eq_none_iff]
      intro x hx hpfx
      rw [List.map_append, List.nodup_append] at hdistinct
      exact hdistinct.2.2 x.pfx (List.mem_map_of_mem hx) b.pfx (by simp) hpfx
    have hstands : Scope.stands? (front ++ outer) b.pfx = outer.stands? b.pfx := by
      rw [stands?_append, hfree, if_neg (by simpa using hxml b (by simp))]
    rw [List.foldl_cons, declare, scope, hstands, List.filter_cons]
    cases hnew : outer.stands? b.pfx == some b.uri with
    | true =>
      rw [bne, hnew, if_pos rfl, if_neg (by simp)]
      refine ih (hdistinct.sublist (List.Sublist.map _ ?_)) hrest
      exact (List.sublist_cons_self b bindings).append_left front
    | false =>
      have hsplit : front ++ b :: bindings = front ++ [b] ++ bindings := by simp
      rw [hsplit] at hdistinct
      rw [bne, hnew, if_neg (by simp), if_pos (by rfl), ih hdistinct hrest, List.append_assoc]
      rfl

/-- Declarations that all say something new are all made. -/
theorem foldl_declare_new {outer : Scope} {next : Nat} {bindings : List Binding}
    (hdistinct : (bindings.map Binding.pfx).Nodup) (hnew : ∀ b ∈ bindings, Declares outer b) :
    bindings.foldl declare ⟨[], outer, next⟩ = ⟨bindings, outer, next⟩ := by
  rw [@foldl_declare outer next [] bindings hdistinct fun b hb => (hnew b hb).notXml,
    List.nil_append,
    List.filter_eq_self.mpr]
  intro b hb
  rw [bne_iff_ne]
  exact (hnew b hb).isNew

end Naming

/-- The declaration that an element uses where one is in force for its namespace. -/
def ownBinding (bindings : List Binding) (outer : Scope) (uri : Option String) : Option Binding :=
  uri.bind fun u => (bindings.find? (·.uri == u)).or (Scope.binding? (bindings ++ outer) u false)

/-- The prefix that is in force for the namespace of an attribute. -/
def attributePrefix (scope : Scope) (uri : Option String) : Option String :=
  uri.bind fun u => (scope.binding? u true).bind Binding.pfx

theorem Naming.own_eq {t : Naming} {uri : Option String}
    (huri : ∀ u ∈ uri, ∃ pfx, t.scope.stands? pfx = some u) :
    t.own t.declared uri =
      if uri.all fun u => (t.declared.find? (·.uri == u)).isSome || Uri.isReference u then
        some (ownBinding t.declared t.outer uri, t)
      else none := by
  cases uri with
  | none => rfl
  | some u =>
    rw [Naming.own, ownBinding, Option.bind_some, Option.all_some]
    cases t.declared.find? (·.uri == u) with
    | some b => rfl
    | none =>
      obtain ⟨pfx, hpfx⟩ := huri u rfl
      obtain ⟨b, hb⟩ := isSome_binding? false (by simp) hpfx
      have huse : t.use u false = (b, t) := by rw [Naming.use, hb]
      rw [← Naming.scope, hb, huse]
      rfl

/-- The names and values of attributes; repeated names count once. -/
def expandAttributes : List ExpandedName → List (String × String) →
    Option (List (ExpandedName × String))
  | _, [] => some []
  | seen, (key, value) :: rest =>
    (ExpandedName.parse? key).bind fun x =>
      if seen.contains x then expandAttributes seen rest
      else if !isDocumentText value || !x.uri.all Uri.isReference then none
      else (expandAttributes (x :: seen) rest).map ((x, value) :: ·)

theorem expandAttributes_spec {seen : List ExpandedName} {attributes : List (String × String)}
    {xs : List (ExpandedName × String)} (h : expandAttributes seen attributes = some xs) :
    (xs.map Prod.fst).Nodup ∧ ∀ a ∈ xs, a.1 ∉ seen ∧ isDocumentText a.2 = true ∧
      a.1.uri.all Uri.isReference = true ∧ ∃ b ∈ attributes, ExpandedName.parse? b.1 = some a.1 := by
  induction attributes generalizing seen xs with
  | nil =>
    cases h
    exact ⟨.nil, nofun⟩
  | cons a rest ih =>
    obtain ⟨key, value⟩ := a
    rw [expandAttributes] at h
    obtain ⟨x, hx, h⟩ := Option.bind_eq_some_iff.mp h
    split at h
    · obtain ⟨hnodup, hall⟩ := ih h
      refine ⟨hnodup, fun a ha => ?_⟩
      obtain ⟨hseen, htext, href, b, hb, hparse⟩ := hall a ha
      exact ⟨hseen, htext, href, b, .tail _ hb, hparse⟩
    · next hseen =>
      split at h
      · cases h
      · next hvalue =>
        rw [Bool.or_eq_true, not_or, Bool.not_eq_true', Bool.not_eq_true', Bool.not_eq_false,
          Bool.not_eq_false] at hvalue
        obtain ⟨ys, hys, rfl⟩ := Option.map_eq_some_iff.mp h
        obtain ⟨hnodup, hall⟩ := ih hys
        constructor
        · rw [List.map_cons, List.nodup_cons]
          refine ⟨fun hmem => ?_, hnodup⟩
          obtain ⟨a, ha, hax⟩ := List.mem_map.mp hmem
          exact (hall a ha).1 (by simp [hax])
        · intro a ha
          rcases List.mem_cons.mp ha with rfl | ha
          · exact ⟨by simpa using hseen, hvalue.1, hvalue.2, (key, value), by simp, hx⟩
          · obtain ⟨hseen', htext, href, b, hb, hparse⟩ := hall a ha
            exact ⟨fun hmem => hseen' (.tail _ hmem), htext, href, b, .tail _ hb, hparse⟩

/-- An attribute as it is written in a scope. -/
def writeAttribute (scope : Scope) (a : ExpandedName × String) : String × String :=
  (prefixed (attributePrefix scope a.1.uri) a.1.name, a.2)

theorem prefixFor_eq {t : Naming} {uri : Option String}
    (huri : ∀ u ∈ uri, ∃ p, t.scope.stands? (some p) = some u) :
    t.prefixFor uri =
      if uri.all Uri.isReference then some (attributePrefix t.scope uri, t) else none := by
  cases uri with
  | none => rfl
  | some u =>
    obtain ⟨p, hp⟩ := huri u rfl
    obtain ⟨b, hb⟩ := isSome_binding? true (fun _ => rfl) hp
    have huse : t.use u true = (b, t) := by rw [Naming.use, hb]
    rw [Naming.prefixFor, huse, attributePrefix, Option.bind_some, hb, Option.all_some]
    rfl

/-- Attributes whose namespaces have prefixes in force are written without making up any. -/
theorem qualifyAttributes_eq {t : Naming} {seen : List ExpandedName}
    {attributes : List (String × String)}
    (h : ∀ a ∈ attributes, ∀ x, ExpandedName.parse? a.1 = some x →
      ∀ u ∈ x.uri, ∃ p, t.scope.stands? (some p) = some u) :
    qualifyAttributes t seen attributes =
      (expandAttributes seen attributes).map fun xs => (t, xs.map (writeAttribute t.scope)) := by
  induction attributes generalizing seen with
  | nil => rfl
  | cons a rest ih =>
    obtain ⟨key, value⟩ := a
    have hrest := fun seen => @ih seen fun a ha => h a (by simp [ha])
    rw [qualifyAttributes_cons, expandAttributes]
    cases hx : ExpandedName.parse? key with
    | none => rfl
    | some x =>
      rw [Option.bind_some, Option.bind_some]
      split
      · exact hrest seen
      · rw [prefixFor_eq (h (key, value) (by simp) x hx)]
        cases isDocumentText value with
        | false => rfl
        | true =>
          cases x.uri.all Uri.isReference with
          | false => rfl
          | true =>
            simp only [Bool.not_true, Bool.or_false, Bool.false_eq_true, if_false, if_true,
              Option.bind_some, hrest (x :: seen), Option.map_map]
            rfl

end Manifest.Xml
