import Manifest.Proofs.Xml.Steady

/-! Tags as they are read. Every one is ordinary, and everything that it names has a declaration in force
where it was read. -/

set_option autoImplicit false

namespace Manifest.Xml

open Markup (rawAttribute)

/-! Names as they are read. -/

theorem drop_length_takeWhile (p : Char → Bool) (cs : List Char) :
    cs.drop (cs.takeWhile p).length = cs.dropWhile p := by
  have h := @List.drop_left _ (cs.takeWhile p) (cs.dropWhile p)
  rw [List.takeWhile_append_dropWhile] at h
  exact h

/-- A name is left as it is or cut at its first colon, behind which a name begins. -/
theorem ofRaw_cases (raw : List Char) :
    (∃ sound, QualifiedName.ofRaw raw = ⟨none, String.ofList raw, sound⟩) ∨
      ∃ front c back, raw = front ++ ':' :: c :: back ∧ isNameStart c = true ∧
        QualifiedName.ofRaw raw =
          ⟨some (String.ofList front), String.ofList (c :: back), !(c :: back).contains ':'⟩ := by
  rw [QualifiedName.ofRaw, drop_length_takeWhile]
  cases hdrop : raw.dropWhile (· != ':') with
  | nil => exact Or.inl ⟨true, rfl⟩
  | cons colon back =>
    have hcolon : colon = ':' := by
      have hhead := List.head?_dropWhile_not (fun c : Char => c != ':') raw
      rw [hdrop] at hhead
      simpa using hhead
    subst hcolon
    have hsplit : raw = raw.takeWhile (· != ':') ++ ':' :: back := by
      rw [← hdrop, List.takeWhile_append_dropWhile]
    dsimp only
    split
    · exact Or.inl ⟨false, rfl⟩
    · next hc =>
      rw [Bool.or_eq_true, not_or, Bool.not_eq_true', Bool.not_eq_false] at hc
      cases back with
      | nil => exact absurd hc.2 (by simp)
      | cons c back =>
        exact Or.inr ⟨raw.takeWhile (· != ':'), c, back, hsplit, by simpa using hc.2, rfl⟩

/-- A name is made up of the parts that it is cut into. -/
theorem raw_ofRaw (raw : List Char) : (QualifiedName.ofRaw raw).raw = String.ofList raw := by
  rcases ofRaw_cases raw with ⟨sound, h⟩ | ⟨front, c, back, hraw, -, h⟩
  · rw [h]
    rfl
  · rw [h, hraw, ← String.toList_inj]
    simp [QualifiedName.raw]

theorem head?_ofRaw {raw : List Char} (h : isRawName raw = true) :
    (QualifiedName.ofRaw raw).name.toList.head? ≠ some '\x7b' := by
  rcases ofRaw_cases raw with ⟨sound, hraw⟩ | ⟨front, c, back, -, hc, hraw⟩
  · rw [hraw, String.toList_ofList]
    obtain ⟨c, cs, rfl, hc, -, -⟩ := isRawName_cons h
    rw [List.head?_cons, ne_eq, Option.some.injEq]
    rintro rfl
    exact absurd hc (by decide)
  · rw [hraw, String.toList_ofList, List.head?_cons, ne_eq, Option.some.injEq]
    rintro rfl
    exact absurd hc (by decide)

/-- A name with a prefix that stands for nothing cannot be written. -/
theorem not_isLocalName_raw {n : QualifiedName} {p : String} (h : n.pfx = some p) :
    isLocalName n.raw.toList = false := by
  have hraw : n.raw.toList = p.toList ++ ':' :: n.name.toList := by
    simp [QualifiedName.raw, h]
  rw [hraw]
  exact not_isLocalName_of_mem (c := ':') (by decide) (by simp)

/-! Declarations as they are read. -/

/-- The name of the attribute that a declaration is read from. -/
def declarationName (b : Binding) : String :=
  match b.pfx with
  | none => "xmlns"
  | some p => "xmlns:" ++ p

theorem declareDefault_spec {uri : String} {b : Binding}
    (h : (declareDefault uri).binding = some b) :
    b = ⟨none, uri⟩ ∧ uri ≠ xmlUri ∧ uri ≠ xmlnsUri := by
  rw [declareDefault] at h
  split at h
  · next he =>
    rw [String.isEmpty_iff] at he
    cases h
    exact ⟨rfl, by rw [he]; decide, by rw [he]; decide⟩
  · dsimp only at h
    split at h
    · cases h
    · next hc =>
      cases h
      rw [Bool.or_eq_true, not_or, beq_iff_eq, beq_iff_eq] at hc
      exact ⟨rfl, hc⟩

theorem declarePrefix_spec {p uri : String} {b : Binding}
    (h : (declarePrefix p uri).binding = some b) :
    b = ⟨some p, uri⟩ ∧ p ≠ "xml" ∧ p ≠ "xmlns" ∧ uri ≠ "" ∧ uri ≠ xmlUri ∧ uri ≠ xmlnsUri := by
  rw [declarePrefix] at h
  split at h
  · cases h
  · next hxml =>
    split at h
    · cases h
    · next hc =>
      cases h
      simp only [Bool.or_eq_true, not_or, beq_iff_eq, String.isEmpty_iff] at hc hxml
      exact ⟨rfl, hxml, hc.1.1.2, hc.2, hc.1.1.1, hc.1.2⟩

/-- What an attribute declares. -/
theorem declared_spec {a : String × String} {b : Binding}
    (h : ((readAttribute a).declared?.bind (·.binding)) = some b) :
    Allowed b ∧ a.1 = declarationName b := by
  obtain ⟨d, hd, hb⟩ := Option.bind_eq_some_iff.mp h
  have hraw := raw_ofRaw a.1.toList
  rw [String.ofList_toList] at hraw
  rw [readAttribute, RawAttribute.declared?] at hd
  rw [QualifiedName.raw] at hraw
  dsimp only at hd
  cases hp : (QualifiedName.ofRaw a.1.toList).pfx with
  | none =>
    rw [hp] at hd hraw
    dsimp only at hd hraw
    split at hd
    · next hname =>
      cases hd
      rw [beq_iff_eq] at hname
      obtain ⟨rfl, hxml, hxmlns⟩ := declareDefault_spec hb
      exact ⟨⟨by simp, by simp, fun hn => absurd rfl hn, hxml, hxmlns⟩, by rw [← hraw, hname]; rfl⟩
    · cases hd
  | some p =>
    rw [hp] at hd hraw
    dsimp only at hd hraw
    split at hd
    · next hpfx =>
      cases hd
      rw [beq_iff_eq] at hpfx
      obtain ⟨rfl, hxml, hxmlns, hne, hu, hu'⟩ := declarePrefix_spec hb
      refine ⟨⟨by simpa using hxml, by simpa using hxmlns, fun _ => hne, hu, hu'⟩, ?_⟩
      have hjoin : ∀ n : String, "xmlns" ++ ":" ++ n = "xmlns:" ++ n :=
        fun n => congrArg (· ++ n) (by decide)
      rw [hpfx, hjoin] at hraw
      exact hraw.symm
    · cases hd

/-! The scope inside a tag that is read. -/

theorem elementName_cases (scope : Scope) (n : QualifiedName) :
    (n.pfx = none ∧ scope.elementName n = (n.name, (scope.uri? none).filter (!·.isEmpty))) ∨
      (∃ p u, n.pfx = some p ∧ scope.stands? (some p) = some u ∧
        scope.elementName n = (n.name, some u)) ∨
      ∃ p, n.pfx = some p ∧ scope.elementName n = (n.raw, none) := by
  rw [Scope.elementName]
  cases hp : n.pfx with
  | none => exact Or.inl ⟨rfl, rfl⟩
  | some p =>
    dsimp only
    rw [resolve?_eq_stands?]
    cases hu : scope.stands? (some p) with
    | some u => exact Or.inr (Or.inl ⟨p, u, rfl, hu, rfl⟩)
    | none => exact Or.inr (Or.inr ⟨p, rfl, rfl⟩)

theorem keyOf_cases (scope : Scope) (n : QualifiedName) :
    (n.pfx = none ∧ scope.keyOf n = n.name) ∨
      (∃ p u, n.pfx = some p ∧ scope.stands? (some p) = some u ∧
        scope.keyOf n = attributeKey u n.name) ∨
      ∃ p, n.pfx = some p ∧ scope.keyOf n = n.raw := by
  rw [Scope.keyOf]
  cases hp : n.pfx with
  | none => exact Or.inl ⟨rfl, rfl⟩
  | some p =>
    dsimp only
    rw [resolve?_eq_stands?]
    cases hu : scope.stands? (some p) with
    | some u => exact Or.inr (Or.inl ⟨p, u, rfl, hu, rfl⟩)
    | none => exact Or.inr (Or.inr ⟨p, rfl, rfl⟩)

theorem head?_of_isRawName {name : String} (h : isRawName name.toList = true) :
    name.toList.head? ≠ some '\x7b' := by
  obtain ⟨c, cs, hcs, hc, -, -⟩ := isRawName_cons h
  rw [hcs, List.head?_cons, ne_eq, Option.some.injEq]
  rintro rfl
  exact absurd hc (by decide)

/-- A tag whose names all have declarations in force inside it. -/
structure Native (inner : Scope) (tag : Tag) : Prop where
  spaceless : isLocalName tag.name.toList = true → tag.uri = none →
    ∀ u ∈ inner.stands? none, u = ""
  spaced : ∀ u ∈ tag.uri, ∃ pfx, inner.stands? pfx = some u
  keys : ∀ a ∈ tag.attributes, ∀ x, ExpandedName.parse? a.1 = some x →
    ∀ u ∈ x.uri, ∃ p, inner.stands? (some p) = some u

/-- A prefix in force stands for a namespace that it may stand for. -/
theorem stands?_allowed {scope : Scope} (h : ∀ b ∈ scope, Allowed b) {pfx : Option String}
    {u : String} (hu : scope.stands? pfx = some u) : (pfx ≠ none → u ≠ "") ∧ u ≠ xmlnsUri := by
  by_cases hx : pfx = some "xml"
  · rw [hx, stands?_xml] at hu
    cases hu
    exact ⟨fun _ => by decide, by decide⟩
  · rw [stands?_eq_uri? hx] at hu
    have hb := h _ (mem_of_uri? hu)
    exact ⟨hb.someUri, hb.notXmlnsUri⟩

/-- The declarations that the attributes of a tag make. -/
theorem read_bindings {attributes : List (String × String)}
    (hdistinct : (attributes.map Prod.fst).Nodup) :
    let bindings := (attributes.map readAttribute).filterMap fun a => a.declared?.bind (·.binding)
    (bindings.map Binding.pfx).Nodup ∧ ∀ b ∈ bindings, Allowed b := by
  constructor
  · rw [List.Nodup, List.pairwise_map, List.pairwise_filterMap, List.pairwise_map]
    rw [List.Nodup, List.pairwise_map] at hdistinct
    refine hdistinct.imp ?_
    intro a a' hne b hb b' hb' hpfx
    have hsame : declarationName b = declarationName b' := by
      rw [declarationName, declarationName, hpfx]
    exact hne ((declared_spec hb).2.trans (hsame.trans (declared_spec hb').2.symm))
  · intro b hb
    obtain ⟨x, hx, hb⟩ := List.mem_filterMap.mp hb
    obtain ⟨a, -, rfl⟩ := List.mem_map.mp hx
    exact (declared_spec hb).1

theorem nodup_withoutRepeats (seen : List String) (xs : List (String × String)) :
    ((withoutRepeats seen xs).map Prod.fst).Nodup ∧ ∀ a ∈ withoutRepeats seen xs, a.1 ∉ seen := by
  induction xs generalizing seen with
  | nil => exact ⟨.nil, nofun⟩
  | cons a xs ih =>
    rw [withoutRepeats]
    split
    · exact ih seen
    · next hseen =>
      obtain ⟨hnodup, hall⟩ := ih (a.1 :: seen)
      constructor
      · rw [List.map_cons, List.nodup_cons]
        refine ⟨fun hmem => ?_, hnodup⟩
        obtain ⟨b, hb, heq⟩ := List.mem_map.mp hmem
        exact hall b hb (heq ▸ List.mem_cons_self ..)
      · intro b hb
        rcases List.mem_cons.mp hb with rfl | hb
        · simpa using hseen
        · exact fun hmem => hall b hb (.tail _ hmem)

/-- The name of an attribute that is read, and what its key is read as. -/
theorem parse?_keyOf {scope : Scope} (hscope : ∀ b ∈ scope, Allowed b) {a : String × String}
    (hraw : isRawName a.1.toList = true) (hplain : (readAttribute a).declared? = none)
    {x : ExpandedName}
    (hx : ExpandedName.parse? (scope.keyOf (QualifiedName.ofRaw a.1.toList)) = some x) :
    tagKey x.uri x.name = scope.keyOf (QualifiedName.ofRaw a.1.toList) ∧
      (x.uri = none → x.name ≠ "xmlns") ∧
      ∀ u ∈ x.uri, u ≠ xmlnsUri ∧ ∃ p, scope.stands? (some p) = some u := by
  have hread : (QualifiedName.ofRaw a.1.toList).raw = a.1 := by
    rw [raw_ofRaw, String.ofList_toList]
  rcases keyOf_cases scope (QualifiedName.ofRaw a.1.toList) with
    ⟨hp, hk⟩ | ⟨p, u, hp, hu, hk⟩ | ⟨p, hp, hk⟩
  · rw [hk] at hx ⊢
    have hx := @eq_of_parse?_tagKey none _ (by simp) (head?_ofRaw hraw) x hx
    subst hx
    refine ⟨rfl, fun _ hn => ?_, by simp⟩
    rw [readAttribute, RawAttribute.declared?] at hplain
    dsimp only at hplain hn
    rw [hp] at hplain
    dsimp only at hplain
    rw [hn] at hplain
    cases hplain
  · obtain ⟨hne, hxmlns⟩ := stands?_allowed hscope hu
    rw [hk, ← tagKey_some (hne (by simp))] at hx ⊢
    have hx := eq_of_parse?_tagKey (fun v hv => by cases hv; exact hne (by simp)) (head?_ofRaw hraw) hx
    subst hx
    exact ⟨rfl, by simp, fun v hv => by cases hv; exact ⟨hxmlns, p, hu⟩⟩
  · have hno := not_isLocalName_raw hp
    rw [hread] at hno
    rw [hk, hread] at hx
    have hx' := @eq_of_parse?_tagKey none _ (by simp) (head?_of_isRawName hraw) x hx
    have hlocal := (parse?_sound hx).isLocal
    rw [hx'] at hlocal
    dsimp only at hlocal
    rw [hno] at hlocal
    cases hlocal

/-- A tag that is read is ordinary and native, and the declarations that it does not keep change nothing. -/
theorem native_resolveTag {outer : Scope} (houter : ∀ b ∈ outer, Allowed b) {name : String}
    {attributes : List (String × String)} (hname : isRawName name.toList = true)
    (hattributes : ∀ a ∈ attributes, isRawName a.1.toList = true)
    (hdistinct : (attributes.map Prod.fst).Nodup) :
    let r := resolveTag [] outer name.toList (attributes.map rawAttribute)
    Ordinary r.tag ∧ Native r.scope r.tag ∧ Scope.Agrees (r.tag.bindings ++ outer) r.scope ∧
      (∀ b ∈ r.scope, Allowed b) ∧
      ∀ b ∈ r.scope, b ∈ r.tag.bindings ∨ b ∈ outer := by
  intro r
  obtain ⟨hscope, htag, -⟩ := resolveTag_written outer name attributes
  obtain ⟨hnodup, hallowed⟩ := read_bindings hdistinct
  generalize ((attributes.map readAttribute).filterMap
    fun a => a.declared?.bind (·.binding)) = declared at hscope htag hnodup hallowed
  have hbindings : r.tag.bindings = declared.filter fun b => outer.uri? b.pfx != some b.uri := by
    rw [htag]
  have hinner : ∀ b ∈ r.scope, Allowed b := by
    intro b hb
    rw [hscope, List.mem_append] at hb
    exact hb.elim (hallowed b) (houter b)
  have helement := elementName_cases r.scope (QualifiedName.ofRaw name.toList)
  have hnames : r.tag.name = (r.scope.elementName (QualifiedName.ofRaw name.toList)).1 ∧
      r.tag.uri = (r.scope.elementName (QualifiedName.ofRaw name.toList)).2 := by
    rw [hscope, htag]
    exact ⟨rfl, rfl⟩
  have hread : (QualifiedName.ofRaw name.toList).raw = name := by
    rw [raw_ofRaw, String.ofList_toList]
  -- the namespace of the element is one that a prefix stands for
  have hspaced : ∀ u ∈ r.tag.uri, u ≠ "" ∧ ∃ pfx, r.scope.stands? pfx = some u := by
    intro u hu
    rw [Option.mem_def, hnames.2] at hu
    rcases helement with ⟨-, he⟩ | ⟨p, v, -, hp, he⟩ | ⟨p, -, he⟩
    · rw [he] at hu
      obtain ⟨hfind, hne⟩ := Option.filter_eq_some_iff.mp hu
      refine ⟨?_, none, (stands?_eq_uri? (by simp)).trans hfind⟩
      simpa [String.isEmpty_iff] using hne
    · rw [he] at hu
      cases hu
      exact ⟨(stands?_allowed hinner hp).1 nofun, some p, hp⟩
    · rw [he] at hu
      cases hu
  -- the attributes are those of the tag that declare nothing
  have hkeys : ∀ a ∈ r.tag.attributes, ∀ x, ExpandedName.parse? a.1 = some x →
      tagKey x.uri x.name = a.1 ∧ (x.uri = none → x.name ≠ "xmlns") ∧
        ∀ u ∈ x.uri, u ≠ xmlnsUri ∧ ∃ p, r.scope.stands? (some p) = some u := by
    intro a ha x hx
    rw [htag] at ha
    obtain ⟨y, hy, rfl⟩ := List.mem_map.mp ((withoutRepeats_sublist _ _).subset ha)
    obtain ⟨hy, hplain⟩ := List.mem_filter.mp hy
    obtain ⟨b, hb, rfl⟩ := List.mem_map.mp hy
    rw [← hscope] at hx ⊢
    exact parse?_keyOf hinner (hattributes b hb) (by simpa using hplain) hx
  refine ⟨⟨?_, ?_, ?_, ?_, ?_, ?_⟩, ⟨?_, ?_, ?_⟩, ?_, hinner, ?_⟩
  · rw [hnames.1]
    rcases helement with ⟨-, he⟩ | ⟨p, u, -, -, he⟩ | ⟨p, -, he⟩
    · rw [he]
      exact head?_ofRaw hname
    · rw [he]
      exact head?_ofRaw hname
    · rw [he, hread]
      exact head?_of_isRawName hname
  · rw [hbindings]
    exact hnodup.sublist (List.filter_sublist.map Binding.pfx)
  · intro b hb
    rw [hbindings, List.mem_filter] at hb
    exact hallowed b hb.1
  · intro u hu
    obtain ⟨hne, pfx, hpfx⟩ := hspaced u hu
    exact ⟨hne, (stands?_allowed hinner hpfx).2⟩
  · rw [htag]
    exact (nodup_withoutRepeats _ _).1
  · intro a ha x hx
    obtain ⟨hkey, hnamed, hu⟩ := hkeys a ha x hx
    exact ⟨hkey, hnamed, fun u hxu => (hu u hxu).1⟩
  · intro hlocal hu u hstands
    rw [hnames.1] at hlocal
    rw [hnames.2] at hu
    rcases helement with ⟨-, he⟩ | ⟨p, v, -, -, he⟩ | ⟨p, hp, he⟩
    · rw [he, Option.filter_eq_none_iff] at hu
      have hempty := hu u ((stands?_eq_uri? (by simp)).symm.trans hstands)
      simpa [String.isEmpty_iff] using hempty
    · rw [he] at hu
      cases hu
    · rw [he, not_isLocalName_raw hp] at hlocal
      cases hlocal
  · exact fun u hu => (hspaced u hu).2
  · exact fun a ha x hx u hu => ((hkeys a ha x hx).2.2 u hu).2
  · rw [hbindings, hscope]
    exact Scope.agrees_filter hnodup fun b hb => (hallowed b hb).notXml
  · intro b hb
    rw [hscope, List.mem_append] at hb
    rcases hb with hb | hb
    · by_cases hin : outer.uri? b.pfx = some b.uri
      · exact Or.inr (mem_of_uri? hin)
      · exact Or.inl (hbindings ▸ List.mem_filter.mpr ⟨hb, by simpa using hin⟩)
    · exact Or.inr hb

end Manifest.Xml
