import Manifest.Proofs.Xml.Home
import Mathlib.Data.List.Find

/-! Ordinary tags, such as are read or made by hand. What a tag names need not have a prefix that stands
for it. While its names are chosen prefixes are made up; they get in the way of none that was chosen
before, so in the end all names of the tag are under prefixes that stand for their namespaces. -/

set_option autoImplicit false

namespace Manifest.Xml

/--
A tag that could have been read: its declarations can be made, and what its attributes are named by is
what their names are read from.
-/
structure Ordinary (tag : Tag) : Prop where
  name : tag.name.toList.head? ≠ some '\x7b'
  distinct : (tag.bindings.map Binding.pfx).Nodup
  allowed : ∀ b ∈ tag.bindings, Allowed b
  spaced : ∀ u ∈ tag.uri, u ≠ "" ∧ u ≠ xmlnsUri
  keysDistinct : (tag.attributes.map Prod.fst).Nodup
  keys : ∀ a ∈ tag.attributes, ∀ x, ExpandedName.parse? a.1 = some x →
    tagKey x.uri x.name = a.1 ∧ (x.uri = none → x.name ≠ "xmlns") ∧ ∀ u ∈ x.uri, u ≠ xmlnsUri

/-- The namespace that an ordinary tag is written in is one that a prefix can stand for. -/
theorem Ordinary.spaced_or {tag : Tag} (ht : Ordinary tag) {parent : Option String}
    (hparent : ∀ u ∈ parent, u ≠ "" ∧ u ≠ xmlnsUri) :
    ∀ u ∈ tag.uri.or parent, u ≠ "" ∧ u ≠ xmlnsUri := by
  intro u hu
  cases htag : tag.uri with
  | none => exact hparent u (by rwa [htag, Option.none_or] at hu)
  | some v => exact ht.spaced u (by rwa [htag, Option.some_or, ← htag] at hu)

/-! A prefix that was made up stands for something new and changes nothing else. -/

theorem newPrefix_ne_xmlns (scope : Scope) (n : Nat) (uri : String) :
    (newPrefix scope n uri).1 ≠ "xmlns" := by
  rw [newPrefix]
  split
  · next pfx hpfx =>
    obtain ⟨hlookup, -⟩ := Option.filter_eq_some_iff.mp hpfx
    obtain ⟨front, back, hsplit, -⟩ := List.lookup_eq_some_iff.mp hlookup
    have hall : ∀ x ∈ customaryPrefixes, x.2 ≠ "xmlns" := by decide
    exact hall (uri, pfx) (by simp [hsplit])
  · intro h
    have hhead := congrArg (fun s : String => s.toList.head?) h
    simp [numberedPrefix] at hhead

/-- A declaration of a prefix that stood for nothing. -/
theorem stands?_concat {declared outer : Scope} {b : Binding}
    (h : Scope.stands? (declared ++ outer) b.pfx = none) (pfx : Option String) :
    Scope.stands? (declared ++ [b] ++ outer) pfx =
      if b.pfx = pfx then some b.uri else Scope.stands? (declared ++ outer) pfx := by
  have hxml : b.pfx ≠ some "xml" := by
    intro hx
    rw [hx, stands?_xml] at h
    cases h
  have hfree : Scope.uri? declared b.pfx = none := by
    rw [stands?_eq_uri? hxml, uri?_eq_none_iff] at h
    rw [uri?_eq_none_iff]
    exact fun x hx => h x (List.mem_append_left _ hx)
  rw [List.append_assoc, List.singleton_append, stands?_append, stands?_cons hxml, stands?_append]
  by_cases hp : b.pfx = pfx
  · subst hp
    rw [hfree, if_neg (by simpa using hxml), if_pos rfl, if_pos rfl]
  · rw [if_neg hp, if_neg hp]

/-- A declaration of a prefix that stood for nothing is not found for another namespace. -/
theorem binding?_concat {declared outer : Scope} {b : Binding} {uri : String} {needsPrefix : Bool}
    (h : Scope.stands? (declared ++ outer) b.pfx = none) (huri : b.uri ≠ uri) :
    Scope.binding? (declared ++ [b] ++ outer) uri needsPrefix =
      Scope.binding? (declared ++ outer) uri needsPrefix := by
  have hxml : b.pfx ≠ some "xml" := by
    intro hx
    rw [hx, stands?_xml] at h
    cases h
  have hother : ∀ x ∈ declared ++ outer, b.pfx ≠ x.pfx := by
    intro x hx hp
    rw [stands?_eq_uri? hxml, uri?_eq_none_iff] at h
    exact h x hx hp.symm
  have hsame : ∀ {part : List Binding}, (∀ x ∈ part, x ∈ declared ++ outer) →
      part.find? (fun x => x.uri == uri && !(needsPrefix && x.pfx.isNone) &&
        Scope.stands? (declared ++ [b] ++ outer) x.pfx == some uri) =
      part.find? (fun x => x.uri == uri && !(needsPrefix && x.pfx.isNone) &&
        Scope.stands? (declared ++ outer) x.pfx == some uri) := by
    intro part hpart
    apply List.find?_congr
    intro x hx
    rw [stands?_concat h, if_neg (hother x (hpart x hx))]
  rw [Scope.binding?, Scope.binding?]
  split
  · rfl
  · rw [List.find?_append, List.find?_append, List.find?_append,
      hsame fun x hx => List.mem_append_left _ hx, hsame fun x hx => List.mem_append_right _ hx,
      List.find?_cons_of_neg (by simp [huri]), List.find?_nil, Option.or_none]

namespace Naming

/-- The declarations made so far are such as can be made, and each of them says something new. -/
structure Fair (t : Naming) : Prop where
  distinct : (t.declared.map Binding.pfx).Nodup
  declares : ∀ b ∈ t.declared, Declares t.outer b
  writable : t.declared.all isWritable = true

/-- More has been declared, and what stood for a namespace stands for it still. -/
structure Grows (t t' : Naming) : Prop where
  outer : t'.outer = t.outer
  covers : Scope.Covers t'.scope t.scope
  keeps : ∀ {u b}, t.scope.binding? u true = some b → t'.scope.binding? u true = some b

theorem Grows.refl (t : Naming) : t.Grows t :=
  ⟨rfl, (Scope.Agrees.refl _).covers, id⟩

theorem Grows.trans {t t' t'' : Naming} (h : t.Grows t') (h' : t'.Grows t'') : t.Grows t'' :=
  ⟨h'.outer.trans h.outer, h'.covers.trans h.covers, fun hb => h'.keeps (h.keeps hb)⟩

/-- The declarations of a tag are made as far as they say something new, and all are in force. -/
theorem fair_declare {outer : Scope} {next : Nat} {bindings : List Binding}
    (hdistinct : (bindings.map Binding.pfx).Nodup) (hallowed : ∀ b ∈ bindings, Allowed b)
    (hwritable : bindings.all isWritable = true) :
    (bindings.foldl declare ⟨[], outer, next⟩).Fair ∧
      (bindings.foldl declare ⟨[], outer, next⟩).outer = outer ∧
      (bindings.foldl declare ⟨[], outer, next⟩).scope.Agrees (bindings ++ outer) := by
  have hxml : ∀ b ∈ bindings, b.pfx ≠ some "xml" := fun b hb => (hallowed b hb).notXml
  rw [@foldl_declare outer next [] bindings hdistinct hxml, List.nil_append]
  refine ⟨⟨hdistinct.sublist (List.filter_sublist.map _), ?_, ?_⟩, rfl, ?_⟩
  · intro b hb
    obtain ⟨hb, hnew⟩ := List.mem_filter.mp hb
    exact ⟨hallowed b hb, by simpa using hnew⟩
  · rw [List.all_eq_true]
    exact fun b hb => List.all_eq_true.mp hwritable b (List.mem_filter.mp hb).1
  · have hsame : (bindings.filter fun b => outer.stands? b.pfx != some b.uri) =
        bindings.filter fun b => outer.uri? b.pfx != some b.uri :=
      List.filter_congr fun x hx => by rw [stands?_eq_uri? (hxml x hx)]
    rw [scope, hsame]
    exact Scope.agrees_filter hdistinct hxml

/-- The binding that is used for a namespace stands for it, and goes on being found. -/
theorem use_spec {t : Naming} (ht : t.Fair) {u : String} (hne : u ≠ "") (hxmlns : u ≠ xmlnsUri)
    (href : Uri.isReference u = true) (htext : isDocumentText u = true) (needsPrefix : Bool) :
    (t.use u needsPrefix).2.Fair ∧ t.Grows (t.use u needsPrefix).2 ∧
      (t.use u needsPrefix).2.scope.binding? u needsPrefix = some (t.use u needsPrefix).1 := by
  rw [use]
  cases hb : t.scope.binding? u needsPrefix with
  | some b => exact ⟨ht, Grows.refl t, hb⟩
  | none =>
    obtain ⟨hlocal, hnone, -, -⟩ := newPrefix_spec t.scope t.next u
    have hnotXmlns := newPrefix_ne_xmlns t.scope t.next u
    obtain ⟨hxmlUri, hfree⟩ := binding?_eq_none hb
    dsimp only
    generalize (newPrefix t.scope t.next u).1 = p at hlocal hnone hnotXmlns ⊢
    have hxml : p ≠ "xml" := by
      rintro rfl
      rw [stands?_xml] at hnone
      cases hnone
    have huri : Scope.uri? (t.declared ++ t.outer) (some p) = none := by
      rw [← stands?_eq_uri? (by simpa using hxml)]
      exact hnone
    rw [uri?_eq_none_iff] at huri
    have houter : t.outer.stands? (some p) = none := by
      rw [stands?_eq_uri? (by simpa using hxml), uri?_eq_none_iff]
      exact fun x hx => huri x (List.mem_append_right _ hx)
    have hscope : Scope.stands? (t.declared ++ t.outer) (⟨some p, u⟩ : Binding).pfx = none := hnone
    refine ⟨⟨?_, ?_, ?_⟩, ⟨rfl, ⟨fun {pfx v} hv => ?_, ?_⟩, ?_⟩, ?_⟩
    · rw [List.map_append, List.nodup_append]
      refine ⟨ht.distinct, by simp, ?_⟩
      intro a ha b hb
      obtain ⟨x, hx, rfl⟩ := List.mem_map.mp ha
      rw [List.map_singleton, List.mem_singleton] at hb
      subst hb
      exact huri x (List.mem_append_left _ hx)
    · intro b hb
      rcases List.mem_append.mp hb with hb | hb
      · exact ht.declares b hb
      · rw [List.mem_singleton] at hb
        subst hb
        exact ⟨⟨by simpa using hxml, by simpa using hnotXmlns, fun _ => hne, hxmlUri, hxmlns⟩,
          by simp [houter]⟩
    · rw [List.all_append, ht.writable]
      simp [isWritable, href, htext, hlocal]
    · rw [scope] at hv ⊢
      dsimp only
      rw [stands?_concat hscope]
      split
      · next hp =>
        rw [← hp, hscope] at hv
        cases hv
      · exact hv
    · rw [scope]
      dsimp only
      rw [stands?_concat hscope, if_neg (by simp)]
      rfl
    · intro v b hb'
      rw [scope] at hb' ⊢
      dsimp only
      rw [binding?_concat hscope, hb']
      -- had it been the same namespace, its prefix would have done
      rintro rfl
      obtain ⟨-, hsome, hstands, -⟩ := binding?_eq_some hb'
      exact hfree b.pfx (fun _ => hsome rfl) hstands
    · rw [scope]
      dsimp only
      have hstands := stands?_concat hscope (some p)
      rw [if_pos rfl] at hstands
      obtain ⟨b, hb'⟩ := isSome_binding? needsPrefix (fun _ => rfl) hstands
      rw [hb']
      obtain ⟨hbu, hbs, hbstands, hmem⟩ := binding?_eq_some hb'
      rw [stands?_concat hscope] at hbstands
      split at hbstands
      · next hp =>
        obtain ⟨pfx, uri⟩ := b
        dsimp only at hp hbu
        rw [← hp, hbu]
      · exact absurd hbstands (hfree b.pfx hbs)

/-- The declaration that an element uses is in force in the end. -/
theorem own_spec {t t' : Naming} (ht : t.Fair) {bindings : List Binding}
    (hforce : ∀ b ∈ bindings, t.scope.stands? b.pfx = some b.uri) {uri : Option String}
    (huri : ∀ u ∈ uri, u ≠ "" ∧ u ≠ xmlnsUri ∧ isDocumentText u = true) {own : Option Binding}
    (h : t.own bindings uri = some (own, t')) :
    t'.Fair ∧ t.Grows t' ∧ (uri = none → own = none) ∧
      ∀ u ∈ uri, ∃ b, own = some b ∧ b.uri = u ∧ t'.scope.stands? b.pfx = some u := by
  cases uri with
  | none =>
    cases h
    exact ⟨ht, Grows.refl t, fun _ => rfl, by simp⟩
  | some u =>
    obtain ⟨hne, hxmlns, htext⟩ := huri u rfl
    rw [Naming.own] at h
    split at h
    · next b hb =>
      cases h
      have hbu : b.uri = u := by simpa using List.find?_some hb
      refine ⟨ht, Grows.refl t, by simp, ?_⟩
      rintro v ⟨⟩
      exact ⟨b, rfl, hbu, hbu ▸ hforce b (List.mem_of_find?_eq_some hb)⟩
    · split at h
      · next href =>
        cases h
        obtain ⟨hfair, hgrows, hfound⟩ := use_spec ht hne hxmlns href htext false
        obtain ⟨hbu, -, hstands, -⟩ := binding?_eq_some hfound
        refine ⟨hfair, hgrows, by simp, ?_⟩
        rintro v ⟨⟩
        exact ⟨_, rfl, hbu, hstands⟩
      · cases h

/-- The prefix of an attribute is the one that is found for its namespace in the end. -/
theorem prefixFor_spec {t t' : Naming} (ht : t.Fair) {uri : Option String}
    (huri : ∀ u ∈ uri, u ≠ "" ∧ u ≠ xmlnsUri ∧ isDocumentText u = true) {pfx : Option String}
    (h : t.prefixFor uri = some (pfx, t')) :
    t'.Fair ∧ t.Grows t' ∧ uri.all Uri.isReference = true ∧
      ∀ u ∈ uri, ∃ b, t'.scope.binding? u true = some b ∧ pfx = b.pfx := by
  cases uri with
  | none =>
    cases h
    exact ⟨ht, Grows.refl t, rfl, nofun⟩
  | some u =>
    obtain ⟨hne, hxmlns, htext⟩ := huri u rfl
    rw [Naming.prefixFor] at h
    split at h
    · next href =>
      cases h
      obtain ⟨hfair, hgrows, hfound⟩ := use_spec ht hne hxmlns href htext true
      refine ⟨hfair, hgrows, href, ?_⟩
      rintro v ⟨⟩
      exact ⟨_, hfound, rfl⟩
    · cases h

end Naming

/-- The attributes of a tag are written under prefixes that stand for their namespaces in the end. -/
theorem qualifyAttributes_spec {t t' : Naming} (ht : t.Fair) {seen : List ExpandedName}
    {attributes written : List (String × String)}
    (hkeys : ∀ a ∈ attributes, ∀ x, ExpandedName.parse? a.1 = some x → ∀ u ∈ x.uri, u ≠ xmlnsUri)
    (h : qualifyAttributes t seen attributes = some (t', written)) :
    t'.Fair ∧ t.Grows t' ∧ ∃ xs, expandAttributes seen attributes = some xs ∧
      written = xs.map (writeAttribute t'.scope) ∧
      ∀ a ∈ xs, ∀ u ∈ a.1.uri, ∃ p, t'.scope.stands? (some p) = some u := by
  induction attributes generalizing t seen written with
  | nil =>
    cases h
    exact ⟨ht, Naming.Grows.refl _, [], rfl, rfl, nofun⟩
  | cons a rest ih =>
    obtain ⟨key, value⟩ := a
    have hrest := fun a ha => hkeys a (List.mem_cons_of_mem (key, value) ha)
    rw [qualifyAttributes_cons] at h
    obtain ⟨x, hx, h⟩ := Option.bind_eq_some_iff.mp h
    rw [expandAttributes, hx, Option.bind_some]
    split at h
    · next hseen =>
      rw [if_pos hseen]
      exact ih ht hrest h
    · next hseen =>
      rw [if_neg hseen]
      split at h
      · cases h
      · next hvalue =>
        obtain ⟨⟨pfx, t₁⟩, hpfx, h⟩ := Option.bind_eq_some_iff.mp h
        obtain ⟨⟨t₂, more⟩, hmore, h⟩ := Option.map_eq_some_iff.mp h
        cases h
        have huri : ∀ u ∈ x.uri, u ≠ "" ∧ u ≠ xmlnsUri ∧ isDocumentText u = true := fun u hu =>
          ⟨((parse?_sound hx).uri u hu).1, hkeys _ (List.mem_cons_self ..) x hx u hu,
            ((parse?_sound hx).uri u hu).2.1⟩
        obtain ⟨hfair₁, hgrows₁, href, hfound⟩ := Naming.prefixFor_spec ht huri hpfx
        dsimp only at hmore ih ⊢
        obtain ⟨hfair₂, hgrows₂, xs, hxs, rfl, hall⟩ := ih hfair₁ hrest hmore
        refine ⟨hfair₂, hgrows₁.trans hgrows₂, (x, value) :: xs, ?_, ?_, ?_⟩
        · rw [if_neg (by simp [href, hvalue]), hxs]
          rfl
        · rw [List.map_cons, writeAttribute]
          congr 2
          cases hu : x.uri with
          | none =>
            rw [hu] at hpfx
            cases hpfx
            rfl
          | some u =>
            obtain ⟨b, hb, hbp⟩ := hfound u hu
            rw [attributePrefix, Option.bind_some, hgrows₂.keeps hb, Option.bind_some, ← hbp]
        · intro a ha u hu
          rcases List.mem_cons.mp ha with rfl | ha
          · obtain ⟨b, hb, -⟩ := hfound u hu
            obtain ⟨-, hsome, hstands, -⟩ := binding?_eq_some (hgrows₂.keeps hb)
            obtain ⟨p, hp⟩ := Option.isSome_iff_exists.mp (hsome rfl)
            exact ⟨p, hp ▸ hstands⟩
          · exact hall a ha u hu

/-! What is chosen for a tag in the end. -/

/--
The declarations that a tag makes in the end, the one that it uses itself, and the names and values of
its attributes: everything that it names has a prefix that stands for its namespace.
-/
structure Chosen (outer : Scope) (uri : Option String) (tag : Tag) (declared : List Binding)
    (own : Option Binding) (xs : List (ExpandedName × String)) : Prop where
  sound : ExpandedName.Sound ⟨uri, tag.name⟩
  distinct : (declared.map Binding.pfx).Nodup
  declares : ∀ b ∈ declared, Declares outer b
  writable : declared.all isWritable = true
  unspaced : uri = none → own = none
  spaced : ∀ u ∈ uri, ∃ b, own = some b ∧ b.uri = u ∧
    Scope.stands? (declared ++ outer) b.pfx = some u ∧ ∀ p ∈ b.pfx, isLocalName p.toList = true
  expand : expandAttributes [] tag.attributes = some xs
  keys : ∀ a ∈ xs, (a.1.uri = none → a.1.name ≠ "xmlns") ∧
    ∀ u ∈ a.1.uri, ∃ p, Scope.stands? (declared ++ outer) (some p) = some u

/-- The tag that is written for what was chosen. -/
def chosenTag (outer : Scope) (uri : Option String) (name : String) (declared : List Binding)
    (own : Option Binding) (xs : List (ExpandedName × String)) (next : Nat) : WrittenTag :=
  writtenTag outer uri name own ⟨declared, outer, next⟩ (xs.map (writeAttribute (declared ++ outer)))

/-- Where the declaration that a tag uses is found, all that the tag declares is in force. -/
theorem Ordinary.owned {outer : Scope} {uri : Option String}
    (hspaced : ∀ u ∈ uri, u ≠ "" ∧ u ≠ xmlnsUri) {tag : Tag} (ht : Ordinary tag)
    (hsound : ExpandedName.Sound ⟨uri, tag.name⟩) (hwritable : tag.bindings.all isWritable = true)
    {own : Option Binding} {next : Nat} {t : Naming}
    (hown : (tag.bindings.foldl Naming.declare ⟨[], outer, next⟩).own tag.bindings uri =
      some (own, t)) :
    t.Fair ∧ t.outer = outer ∧ Scope.Covers t.scope (tag.bindings ++ outer) ∧
      (uri = none → own = none) ∧
      ∀ u ∈ uri, ∃ b, own = some b ∧ b.uri = u ∧ t.scope.stands? b.pfx = some u := by
  obtain ⟨hfair, houter, hagrees⟩ :=
    @Naming.fair_declare outer next tag.bindings ht.distinct ht.allowed hwritable
  have hforce : ∀ b ∈ tag.bindings,
      (tag.bindings.foldl Naming.declare ⟨[], outer, next⟩).scope.stands? b.pfx = some b.uri :=
    fun b hb => (hagrees b.pfx).trans
      (stands?_of_mem ht.distinct hb (ht.allowed b hb).notXml outer)
  obtain ⟨hfair', hgrows, hnone, hsome⟩ := Naming.own_spec hfair hforce
    (fun u hu => ⟨(hspaced u hu).1, (hspaced u hu).2, (hsound.uri u hu).2.1⟩) hown
  exact ⟨hfair', hgrows.outer.trans houter, hgrows.covers.trans hagrees.covers, hnone, hsome⟩

/-- While the names of an ordinary tag are chosen everything that it names gets a prefix. -/
theorem Ordinary.chosen_of {outer : Scope} (houter : outer.isSound = true) {uri : Option String}
    (hspaced : ∀ u ∈ uri, u ≠ "" ∧ u ≠ xmlnsUri) {tag : Tag} (ht : Ordinary tag)
    (hsound : ExpandedName.Sound ⟨uri, tag.name⟩) (hwritable : tag.bindings.all isWritable = true)
    {own : Option Binding} {next : Nat} {t t' : Naming} {attributes : List (String × String)}
    (hown : (tag.bindings.foldl Naming.declare ⟨[], outer, next⟩).own tag.bindings uri =
      some (own, t))
    (hattributes : qualifyAttributes t [] tag.attributes = some (t', attributes)) :
    t'.outer = outer ∧ ∃ xs, Chosen outer uri tag t'.declared own xs ∧
      attributes = xs.map (writeAttribute (t'.declared ++ outer)) := by
  obtain ⟨hfair₁, houter₁, -, hnone, hsome⟩ := ht.owned hspaced hsound hwritable hown
  obtain ⟨hfair₂, hgrows₂, xs, hxs, rfl, hall⟩ := qualifyAttributes_spec hfair₁
    (fun a ha x hx => (ht.keys a ha x hx).2.2) hattributes
  have htouter : t'.outer = outer := hgrows₂.outer.trans houter₁
  have hscope : t'.scope = t'.declared ++ outer := by rw [Naming.scope, htouter]
  have hlocal : Scope.isSound (t'.declared ++ outer) = true :=
    Scope.isSound_append.mpr ⟨isSound_bindings hfair₂.writable, houter⟩
  rw [hscope] at hall
  refine ⟨htouter, xs, ⟨hsound, hfair₂.distinct, htouter ▸ hfair₂.declares,
    hfair₂.writable, hnone, ?_, hxs, ?_⟩, by rw [hscope]⟩
  · intro u hu
    obtain ⟨b, hb, hbu, hstands⟩ := hsome u hu
    have hstands := hgrows₂.covers.stands hstands
    rw [hscope] at hstands
    exact ⟨b, hb, hbu, hstands, isLocalName_of_stands? hlocal hstands⟩
  · intro a ha
    obtain ⟨-, hspec⟩ := expandAttributes_spec hxs
    obtain ⟨-, -, -, b, hb, hparse⟩ := hspec a ha
    exact ⟨(ht.keys b hb a.1 hparse).2.1, hall a ha⟩

/-- An ordinary tag is written with prefixes for everything that it names. -/
theorem Ordinary.chosen {outer : Scope} (houter : outer.isSound = true) {parent : Option String}
    (hparent : ∀ u ∈ parent, u ≠ "" ∧ u ≠ xmlnsUri) {tag : Tag} (ht : Ordinary tag) {next : Nat}
    {w : WrittenTag} (hw : qualifyTag outer parent next tag = some w) :
    ∃ declared own xs next', Chosen outer (tag.uri.or parent) tag declared own xs ∧
      w = chosenTag outer (tag.uri.or parent) tag.name declared own xs next' := by
  obtain ⟨x, own, t, t', attributes, hname, hwritable, hown, hattributes, rfl⟩ :=
    qualifyTag_eq_some.mp hw
  have hspaced := ht.spaced_or hparent
  obtain rfl := eq_of_parse?_tagKey (fun u hu => (hspaced u hu).1) ht.name hname
  obtain ⟨-, xs, hc, rfl⟩ :=
    ht.chosen_of houter hspaced (parse?_sound hname) hwritable hown hattributes
  exact ⟨t'.declared, own, xs, t'.next, hc, by simp only [chosenTag, writtenTag]⟩

end Manifest.Xml
