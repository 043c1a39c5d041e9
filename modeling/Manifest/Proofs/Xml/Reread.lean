import Manifest.Proofs.Xml.Ordinary

/-! What is read of a tag after it was written: the same tag with its namespace stated and with the
declarations that were made for it, in a scope that says the same. Reading it meets with no fault. -/

set_option autoImplicit false

namespace Manifest.Xml

open Markup (rawAttribute)

/-! Attributes by their names. -/

/-- An attribute under the key that its name has. -/
def keyedAttribute (a : ExpandedName × String) : String × String :=
  (tagKey a.1.uri a.1.name, a.2)

theorem expandAttributes_keyed {seen : List ExpandedName} {xs : List (ExpandedName × String)}
    (hnodup : (xs.map Prod.fst).Nodup)
    (h : ∀ a ∈ xs, a.1 ∉ seen ∧ isDocumentText a.2 = true ∧
      a.1.uri.all Uri.isReference = true ∧ a.1.Sound) :
    expandAttributes seen (xs.map keyedAttribute) = some xs := by
  induction xs generalizing seen with
  | nil => rfl
  | cons a xs ih =>
    obtain ⟨hseen, htext, href, hsound⟩ := h a (by simp)
    rw [List.map_cons, List.nodup_cons] at hnodup
    have hrest := @ih (a.1 :: seen) hnodup.2 fun b hb => by
      obtain ⟨hseen', hrest⟩ := h b (by simp [hb])
      refine ⟨fun hmem => ?_, hrest⟩
      rcases List.mem_cons.mp hmem with heq | hmem
      · exact hnodup.1 (heq ▸ List.mem_map_of_mem hb)
      · exact hseen' hmem
    rw [List.map_cons, keyedAttribute, expandAttributes, hsound.parse?_tagKey, Option.bind_some,
      if_neg (by simpa using hseen), htext, href, if_neg (by simp), hrest]
    rfl

/-! Names as they are read. -/

theorem ofRaw_prefixed {pfx : Option String} {name : String}
    (hpfx : ∀ p ∈ pfx, isLocalName p.toList = true) (hname : isLocalName name.toList = true) :
    QualifiedName.ofRaw (prefixed pfx name).toList = ⟨pfx, name, true⟩ := by
  have hcolon : ∀ {cs : List Char}, isLocalName cs = true → ∀ c ∈ cs, (c != ':') = true := by
    intro cs hcs c hc
    rw [bne_iff_ne]
    exact ne_colon_of_isNameChar (List.all_eq_true.mp (all_isNameChar_of_isLocalName hcs) c hc)
  cases pfx with
  | none =>
    have htake : name.toList.takeWhile (· != ':') = name.toList :=
      List.takeWhile_eq_self_iff.mpr (hcolon hname)
    rw [prefixed, QualifiedName.ofRaw, htake, List.drop_length, String.ofList_toList]
  | some p =>
    have hlist : (prefixed (some p) name).toList = p.toList ++ ':' :: name.toList := by
      simp [prefixed]
    have htake : (p.toList ++ ':' :: name.toList).takeWhile (· != ':') = p.toList := by
      rw [List.takeWhile_append_of_pos (hcolon (hpfx p rfl)), List.takeWhile_cons_of_neg (by simp),
        List.append_nil]
    have hempty : p.toList.isEmpty = false := by
      have hlocal := hpfx p rfl
      cases hp : p.toList with
      | nil => rw [hp] at hlocal; cases hlocal
      | cons c cs => rfl
    have hstart : name.toList.head?.any isNameStart = true := by
      cases hn : name.toList with
      | nil => rw [hn] at hname; cases hname
      | cons c cs =>
        rw [hn, isLocalName, Bool.and_eq_true] at hname
        exact hname.1
    have hno : name.toList.contains ':' = false := by
      rw [List.contains_eq_mem, decide_eq_false_iff_not]
      intro hmem
      simpa using hcolon hname ':' hmem
    rw [hlist, QualifiedName.ofRaw, htake, List.drop_left]
    dsimp only
    rw [hempty, hstart, hno, String.ofList_toList, String.ofList_toList]
    rfl

/-- An attribute as it is written, with its name cut at the colon. -/
def readAttribute (a : String × String) : RawAttribute :=
  ⟨QualifiedName.ofRaw a.1.toList, a.2⟩

theorem readAttribute_prefixed {pfx : Option String} {name : String}
    (hpfx : ∀ p ∈ pfx, isLocalName p.toList = true) (hname : isLocalName name.toList = true)
    (value : String) : readAttribute (prefixed pfx name, value) = ⟨⟨pfx, name, true⟩, value⟩ := by
  rw [readAttribute]
  dsimp only
  rw [ofRaw_prefixed hpfx hname]

/-- The name of the attribute that makes a declaration, cut at the colon. -/
def declarationRaw (b : Binding) : QualifiedName :=
  match b.pfx with
  | none => ⟨none, "xmlns", true⟩
  | some p => ⟨some "xmlns", p, true⟩

theorem declarationRaw_injective {a b : Binding} (h : declarationRaw a = declarationRaw b) :
    a.pfx = b.pfx := by
  obtain ⟨pfx, uri⟩ := a
  obtain ⟨pfx', uri'⟩ := b
  cases pfx <;> cases pfx' <;> simp_all [declarationRaw]

/-- A declaration that can be made is read as it was written, without fault. -/
theorem readAttribute_declarationAttribute? {b : Binding} (h : Allowed b)
    (hb : isWritable b = true) :
    ∃ a d, declarationAttribute? b = some a ∧ readAttribute a = ⟨declarationRaw b, b.uri⟩ ∧
      (readAttribute a).declared? = some d ∧ d.binding = some b ∧ Remark.fault ∉ d.remarks := by
  rw [isWritable, Bool.and_eq_true, Bool.and_eq_true, Option.all_eq_true] at hb
  obtain ⟨⟨href, -⟩, hlocal⟩ := hb
  obtain ⟨pfx, uri⟩ := b
  have hxml := h.notXmlUri
  have hxmlns := h.notXmlnsUri
  dsimp only at hxml hxmlns href
  cases pfx with
  | none =>
    have hread := @readAttribute_prefixed none "xmlns" (by simp) (by decide) uri
    rw [prefixed] at hread
    refine ⟨("xmlns", uri), declareDefault uri, rfl, hread, by rw [hread]; rfl, ?_⟩
    rw [declareDefault]
    split
    · simp
    · rw [href, if_neg (by simp [hxml, hxmlns])]
      refine ⟨rfl, ?_⟩
      simp only [Bool.not_true, Bool.false_eq_true, if_false]
      split <;> simp
  | some p =>
    have hp : p ≠ "xml" := fun he => h.notXml (by rw [he])
    have hp' : p ≠ "xmlns" := fun he => h.notXmlns (by rw [he])
    have hne : uri.isEmpty = false := by
      cases he : uri.isEmpty with
      | false => rfl
      | true => exact absurd (String.isEmpty_iff.mp he) (h.someUri (by simp))
    have hread := @readAttribute_prefixed (some "xmlns") p
      (by intro q hq; cases hq; decide) (hlocal p rfl) uri
    have hname : prefixed (some "xmlns") p = "xmlns:" ++ p := rfl
    rw [hname] at hread
    refine ⟨("xmlns:" ++ p, uri), declarePrefix p uri, ?_, hread, by rw [hread]; rfl, ?_⟩
    · rw [declarationAttribute?]
      exact if_neg (by simpa using hp)
    · simp [declarePrefix, faultUnless, hne, hxml, hxmlns, hp, hp', href]

theorem declared?_plain {pfx : Option String} {name : String}
    (hplain : pfx = none → name ≠ "xmlns") (hspaced : pfx ≠ some "xmlns") (value : String) :
    RawAttribute.declared? ⟨⟨pfx, name, true⟩, value⟩ = none := by
  rw [RawAttribute.declared?]
  cases pfx with
  | none => simpa using hplain rfl
  | some p => simpa using hspaced

/-! The scope inside a tag. -/

theorem resolve?_eq_stands? (scope : Scope) (p : String) :
    scope.resolve? p = scope.stands? (some p) := by
  rw [Scope.resolve?, Scope.stands?]
  by_cases hp : p = "xml"
  · rw [hp]
    rfl
  · rw [if_neg (by simpa using hp), if_neg (by simpa using hp)]

/-- A tag that is read has the names that its attributes have in the scope inside it. -/
theorem map_read_rawAttribute (attributes : List (String × String)) :
    ((attributes.map rawAttribute).map fun (name, value) =>
      (⟨QualifiedName.ofRaw name, String.ofList value⟩ : RawAttribute)) =
      attributes.map readAttribute := by
  rw [List.map_map]
  apply List.map_congr_left
  intro a _
  simp [rawAttribute, readAttribute]

theorem resolveTag_written (outer : Scope) (name : String) (attributes : List (String × String)) :
    let all := attributes.map readAttribute
    let bindings := all.filterMap fun a => a.declared?.bind (·.binding)
    let plain := all.filter (·.declared?.isNone)
    let keyed := plain.map fun a => (Scope.keyOf (bindings ++ outer) a.name, a.value)
    let element := QualifiedName.ofRaw name.toList
    let r := resolveTag [] outer name.toList (attributes.map rawAttribute)
    r.scope = bindings ++ outer ∧
      r.tag = {
        name := (Scope.elementName (bindings ++ outer) element).1
        uri := (Scope.elementName (bindings ++ outer) element).2
        bindings := bindings.filter fun b => outer.uri? b.pfx != some b.uri
        attributes := withoutRepeats [] keyed } ∧
      r.remarks = faultUnless element.sound ++ all.flatMap (·.remarks) ++
        plain.flatMap (fun a => faultUnless (Scope.knows (bindings ++ outer) a.name)) ++
        faultUnless (keysDistinct (keyed.map Prod.fst)) ++
        faultUnless (Scope.knows (bindings ++ outer) element) := by
  intro all bindings plain keyed element r
  have hdefaults : withDefaults [] name.toList (attributes.map rawAttribute) =
      attributes.map rawAttribute := by
    simp [withDefaults]
  have hall := map_read_rawAttribute attributes
  refine ⟨?_, ?_, ?_⟩
  · simp only [r, resolveTag, hdefaults, hall]
    rfl
  · simp only [r, resolveTag, hdefaults, hall, List.zip_map']
    rfl
  · simp only [r, resolveTag, hdefaults, hall, keyed, List.map_map]
    rfl

theorem withoutRepeats_eq_self {seen : List String} {xs : List (String × String)}
    (hnodup : (xs.map Prod.fst).Nodup) (h : ∀ a ∈ xs, a.1 ∉ seen) : withoutRepeats seen xs = xs := by
  induction xs generalizing seen with
  | nil => rfl
  | cons a xs ih =>
    rw [List.map_cons, List.nodup_cons] at hnodup
    rw [withoutRepeats, if_neg (by simpa using h a (by simp)), ih hnodup.2]
    intro b hb hmem
    rcases List.mem_cons.mp hmem with heq | hmem
    · exact hnodup.1 (heq ▸ List.mem_map_of_mem hb)
    · exact h b (by simp [hb]) hmem

/-- What is left without repeats is among what there was. -/
theorem withoutRepeats_sublist (seen : List String) (xs : List (String × String)) :
    (withoutRepeats seen xs).Sublist xs := by
  induction xs generalizing seen with
  | nil => exact .slnil
  | cons a xs ih =>
    rw [withoutRepeats]
    split
    · exact (ih seen).cons a
    · exact (ih _).cons_cons a

/-- Names of attributes that differ have keys that differ. -/
theorem nodup_keyedAttribute {xs : List (ExpandedName × String)} (hnodup : (xs.map Prod.fst).Nodup)
    (h : ∀ a ∈ xs, a.1.Sound) : ((xs.map keyedAttribute).map Prod.fst).Nodup := by
  rw [List.Nodup, List.pairwise_map] at hnodup
  rw [List.map_map, List.Nodup, List.pairwise_map]
  refine hnodup.imp_of_mem ?_
  intro a b ha hb hne hkey
  have hparse := (h a ha).parse?_tagKey
  rw [show tagKey a.1.uri a.1.name = tagKey b.1.uri b.1.name from hkey, (h b hb).parse?_tagKey]
    at hparse
  exact hne (Option.some.inj hparse).symm

/-! What is read of a tag that was written. -/

@[simp] theorem fault_mem_faultUnless {sound : Bool} :
    Remark.fault ∈ faultUnless sound ↔ sound = false := by
  cases sound <;> simp [faultUnless]

/-- The declarations of a tag are read as they were made. -/
theorem read_declarations {bindings : List Binding} (h : ∀ b ∈ bindings, Allowed b)
    (hb : bindings.all isWritable = true) :
    let all := (bindings.filterMap declarationAttribute?).map readAttribute
    all.filterMap (fun a => a.declared?.bind (·.binding)) = bindings ∧
      all.filter (·.declared?.isNone) = [] ∧ Remark.fault ∉ all.flatMap (·.remarks) ∧
      all.map (·.name) = bindings.map declarationRaw := by
  induction bindings with
  | nil => exact ⟨rfl, rfl, nofun, rfl⟩
  | cons b bindings ih =>
    rw [List.all_cons, Bool.and_eq_true] at hb
    obtain ⟨hbindings, hplain, hremarks, hnames⟩ := ih (fun x hx => h x (by simp [hx])) hb.2
    obtain ⟨a, d, ha, hname, hd, hdb, hfault⟩ :=
      readAttribute_declarationAttribute? (h b (by simp)) hb.1
    have hsound : (declarationRaw b).sound = true := by
      rw [declarationRaw]
      split <;> rfl
    dsimp only at hbindings hplain hremarks hnames ⊢
    rw [List.filterMap_cons_some ha, List.map_cons, List.filterMap_cons, List.filter_cons,
      List.flatMap_cons, List.map_cons, hd, Option.bind_some, hdb, hbindings, hplain, hnames]
    refine ⟨rfl, rfl, ?_, by rw [hname, List.map_cons]⟩
    rw [List.mem_append, not_or, RawAttribute.remarks, hd, hname, hsound]
    exact ⟨by simpa [faultUnless] using hfault, hremarks⟩

/-- The prefix under which an attribute is written stands for its namespace. -/
theorem attributePrefix_spec {scope : Scope} (hscope : scope.isSound = true) {uri : Option String}
    (h : ∀ u ∈ uri, ∃ p, scope.stands? (some p) = some u) :
    (∀ p ∈ attributePrefix scope uri, isLocalName p.toList = true) ∧
      (attributePrefix scope uri = none → uri = none) ∧
      ∀ p ∈ attributePrefix scope uri, scope.stands? (some p) = uri := by
  cases uri with
  | none => exact ⟨by simp [attributePrefix], fun _ => rfl, by simp [attributePrefix]⟩
  | some u =>
    obtain ⟨p, hp⟩ := h u rfl
    obtain ⟨b, hb⟩ := isSome_binding? true (fun _ => rfl) hp
    obtain ⟨-, hsome, hstands, -⟩ := binding?_eq_some hb
    have hpfx : attributePrefix scope (some u) = b.pfx := by
      rw [attributePrefix, Option.bind_some, hb, Option.bind_some]
    have hlocal := (Scope.isSound_iff.mp (Scope.isSound_binding? hscope hb) b (by simp)).2
    obtain ⟨q, hq⟩ := Option.isSome_iff_exists.mp (hsome rfl)
    rw [hq] at hstands hlocal
    rw [hpfx, hq]
    refine ⟨hlocal, by simp, ?_⟩
    intro x hx
    cases hx
    exact hstands

section
variable {outer reading : Scope} {uri : Option String} {tag : Tag} {declared : List Binding}
  {own : Option Binding} {xs : List (ExpandedName × String)}

theorem Chosen.isSound (hc : Chosen outer uri tag declared own xs) (hsound : outer.isSound = true) :
    Scope.isSound (declared ++ outer) = true :=
  Scope.isSound_append.mpr ⟨isSound_bindings hc.writable, hsound⟩

theorem Chosen.sound_of_mem (hc : Chosen outer uri tag declared own xs)
    {a : ExpandedName × String} (ha : a ∈ xs) : a.1.Sound := by
  obtain ⟨-, hspec⟩ := expandAttributes_spec hc.expand
  obtain ⟨-, -, -, b, -, hparse⟩ := hspec a ha
  exact parse?_sound hparse

/-- An attribute that was written is read under the name and namespace that it has. -/
theorem Chosen.readAttribute_writeAttribute (hc : Chosen outer uri tag declared own xs)
    (hagrees : reading.Agrees outer) (hsound : outer.isSound = true)
    (hxmlns : outer.stands? (some "xmlns") = none) {a : ExpandedName × String} (ha : a ∈ xs) :
    let b := readAttribute (writeAttribute (declared ++ outer) a)
    b.declared? = none ∧ (Scope.keyOf (declared ++ reading) b.name, b.value) = keyedAttribute a ∧
      Scope.knows (declared ++ reading) b.name = true ∧ Remark.fault ∉ b.remarks := by
  intro b
  have hread := hagrees.append declared
  obtain ⟨hnamed, hspaced⟩ := hc.keys a ha
  have hname := hc.sound_of_mem ha
  obtain ⟨hlocal, hnone, hstands⟩ := attributePrefix_spec (hc.isSound hsound) hspaced
  have hb : b = ⟨⟨attributePrefix (declared ++ outer) a.1.uri, a.1.name, true⟩, a.2⟩ :=
    readAttribute_prefixed hlocal hname.isLocal a.2
  have hplain : b.declared? = none := by
    rw [hb]
    refine declared?_plain (fun hp => hnamed (hnone hp)) (fun hp => ?_) a.2
    have hstands' := hstands "xmlns" hp
    rw [stands?_xmlns_append (fun b hb => (hc.declares b hb).toAllowed) hxmlns] at hstands'
    rw [← hstands'] at hp
    cases hp
  refine ⟨hplain, ?_, ?_, ?_⟩
  · rw [hb, Scope.keyOf, keyedAttribute]
    cases hp : attributePrefix (declared ++ outer) a.1.uri with
    | none => rw [hnone hp, tagKey]
    | some p =>
      have hp' := hstands p hp
      rw [← hread (some p), ← resolve?_eq_stands?] at hp'
      dsimp only
      cases hu : a.1.uri with
      | none =>
        rw [hu] at hp
        cases hp
      | some u => rw [hp', hu, tagKey_some (hname.uri u hu).1]
  · rw [hb, Scope.knows, Option.all_eq_true]
    intro p hp
    have hp' := hstands p hp
    rw [← hread (some p), ← resolve?_eq_stands?] at hp'
    rw [hp']
    cases hu : a.1.uri with
    | none =>
      rw [hu] at hp
      cases hp
    | some u => rfl
  · rw [RawAttribute.remarks, hplain, hb]
    simp only [List.mem_append, fault_mem_faultUnless, Bool.true_eq_false, false_or]
    split <;> simp

/-- The names of the attributes of a tag that is written differ from each other. -/
theorem Chosen.nodup_attributes (hc : Chosen outer uri tag declared own xs)
    (hsound : outer.isSound = true) (hxmlns : outer.stands? (some "xmlns") = none) (next : Nat) :
    ((chosenTag outer uri tag.name declared own xs next).attributes.map Prod.fst).Nodup := by
  have hattribute := fun a (ha : a ∈ xs) =>
    hc.readAttribute_writeAttribute (Scope.Agrees.refl outer) hsound hxmlns ha
  obtain ⟨-, -, -, hnames⟩ := read_declarations (fun b hb => (hc.declares b hb).toAllowed) hc.writable
  -- names that are cut differently differ
  apply List.Nodup.of_map fun name : String => QualifiedName.ofRaw name.toList
  have hcut : ∀ as : List (String × String),
      (as.map Prod.fst).map (fun name : String => QualifiedName.ofRaw name.toList) =
        (as.map readAttribute).map (·.name) := by
    intro as
    rw [List.map_map, List.map_map]
    rfl
  rw [hcut, chosenTag, writtenTag, List.map_append, List.map_append]
  dsimp only at hnames ⊢
  rw [hnames, List.nodup_append]
  refine ⟨?_, ?_, ?_⟩
  · have hdistinct := hc.distinct
    rw [List.Nodup, List.pairwise_map] at hdistinct ⊢
    exact hdistinct.imp fun hne heq => hne (declarationRaw_injective heq)
  · have hkeys := nodup_keyedAttribute (expandAttributes_spec hc.expand).1 fun a => hc.sound_of_mem
    apply List.Nodup.of_map fun name => Scope.keyOf (declared ++ outer) name
    have hsame : (((xs.map (writeAttribute (declared ++ outer))).map readAttribute).map
        (·.name)).map (fun name => Scope.keyOf (declared ++ outer) name) =
          (xs.map keyedAttribute).map Prod.fst := by
      simp only [List.map_map]
      apply List.map_congr_left
      intro a ha
      exact congrArg Prod.fst (hattribute a ha).2.1
    rw [hsame]
    exact hkeys
  · intro name hname name' hname' heq
    obtain ⟨b, -, rfl⟩ := List.mem_map.mp hname
    obtain ⟨x, hx, rfl⟩ := List.mem_map.mp hname'
    obtain ⟨y, hy, rfl⟩ := List.mem_map.mp hx
    obtain ⟨a, ha, rfl⟩ := List.mem_map.mp hy
    have hplain := (hattribute a ha).1
    rw [RawAttribute.declared?, ← heq] at hplain
    obtain ⟨pfx, uri⟩ := b
    cases pfx <;> simp [declarationRaw] at hplain

/-- The name of an element that was written is read as the name it has. -/
theorem Chosen.elementName (hc : Chosen outer uri tag declared own xs)
    (hagrees : reading.Agrees outer) (next : Nat) :
    let w := chosenTag outer uri tag.name declared own xs next
    let n := QualifiedName.ofRaw w.name.toList
    n.sound = true ∧ Scope.knows (declared ++ reading) n = true ∧
      Scope.elementName (declared ++ reading) n =
        (tag.name, uri.or ((Scope.stands? (declared ++ outer) none).filter (!·.isEmpty))) := by
  intro w n
  have hread := hagrees.append declared
  cases hu : uri with
  | none =>
    have hname : w.name = prefixed none tag.name := by
      dsimp only [w, chosenTag, writtenTag]
      rw [hc.unspaced hu]
      rfl
    have hn : n = ⟨none, tag.name, true⟩ := by
      dsimp only [n]
      rw [hname, ofRaw_prefixed (by simp) hc.sound.isLocal]
    rw [hn, Scope.elementName, Scope.knows, ← hread none, stands?_eq_uri? (by simp)]
    exact ⟨rfl, rfl, rfl⟩
  | some u =>
    obtain ⟨b, hb, -, hstands, hlocal⟩ := hc.spaced u hu
    have hname : w.name = prefixed b.pfx tag.name := by
      dsimp only [w, chosenTag, writtenTag]
      rw [hb]
      rfl
    have hn : n = ⟨b.pfx, tag.name, true⟩ := by
      dsimp only [n]
      rw [hname, ofRaw_prefixed hlocal hc.sound.isLocal]
    rw [hn, Scope.elementName, Scope.knows]
    cases hp : b.pfx with
    | none =>
      rw [hp, ← hread none, stands?_eq_uri? (by simp)] at hstands
      dsimp only
      rw [hstands, Option.filter_some, if_pos]
      · exact ⟨rfl, rfl, rfl⟩
      · have hne := (hc.sound.uri u hu).1
        simpa [String.isEmpty_iff] using hne
    | some p =>
      rw [hp, ← hread (some p), ← resolve?_eq_stands?] at hstands
      dsimp only
      rw [Option.all_some, hstands]
      exact ⟨rfl, rfl, rfl⟩

/--
What is written for a tag is read without fault, as the tag with its namespace stated and with the
declarations that were made.
-/
theorem Chosen.resolveTag_chosenTag (hc : Chosen outer uri tag declared own xs)
    (hagrees : reading.Agrees outer) (hsound : outer.isSound = true)
    (hxmlns : outer.stands? (some "xmlns") = none) (next : Nat) :
    let w := chosenTag outer uri tag.name declared own xs next
    let r := resolveTag [] reading w.name.toList (w.attributes.map rawAttribute)
    r.scope = declared ++ reading ∧
      r.tag = {
        name := tag.name
        uri := uri.or ((Scope.stands? (declared ++ outer) none).filter (!·.isEmpty))
        bindings := declared
        attributes := xs.map keyedAttribute } ∧
      Remark.fault ∉ r.remarks := by
  intro w r
  obtain ⟨hdeclared, hnoPlain, hnoFault, -⟩ :=
    read_declarations (fun b hb => (hc.declares b hb).toAllowed) hc.writable
  have hattribute := fun a (ha : a ∈ xs) =>
    hc.readAttribute_writeAttribute hagrees hsound hxmlns ha
  obtain ⟨hnamed, hknown, helement⟩ := hc.elementName hagrees next
  obtain ⟨hscope, htag, hremarks⟩ := resolveTag_written reading w.name w.attributes
  have hall : w.attributes.map readAttribute =
      (declared.filterMap declarationAttribute?).map readAttribute ++
        (xs.map (writeAttribute (declared ++ outer))).map readAttribute :=
    List.map_append
  generalize hplain : (xs.map (writeAttribute (declared ++ outer))).map readAttribute = plain
    at hall
  have hmem : ∀ b ∈ plain, ∃ a ∈ xs, b = readAttribute (writeAttribute (declared ++ outer) a) := by
    rw [← hplain]
    intro b hb
    obtain ⟨c, hc, rfl⟩ := List.mem_map.mp hb
    obtain ⟨a, ha, rfl⟩ := List.mem_map.mp hc
    exact ⟨a, ha, rfl⟩
  have hnone : plain.filterMap (fun a => a.declared?.bind (·.binding)) = [] := by
    rw [List.filterMap_eq_nil_iff]
    intro b hb
    obtain ⟨a, ha, rfl⟩ := hmem b hb
    rw [(hattribute a ha).1]
    rfl
  have hself : plain.filter (·.declared?.isNone) = plain := by
    rw [List.filter_eq_self]
    intro b hb
    obtain ⟨a, ha, rfl⟩ := hmem b hb
    rw [(hattribute a ha).1]
    rfl
  have hkeyed : plain.map (fun a => (Scope.keyOf (declared ++ reading) a.name, a.value)) =
      xs.map keyedAttribute := by
    rw [← hplain, List.map_map, List.map_map]
    exact List.map_congr_left fun a ha => (hattribute a ha).2.1
  have hdistinct : ((xs.map keyedAttribute).map Prod.fst).Nodup :=
    nodup_keyedAttribute (expandAttributes_spec hc.expand).1 fun a => hc.sound_of_mem
  rw [hall] at hscope htag hremarks
  simp only [List.filterMap_append, List.filter_append, List.flatMap_append, hdeclared, hnoPlain,
    hnone, hself, List.append_nil, List.nil_append, hkeyed] at hscope htag hremarks
  refine ⟨hscope, ?_, ?_⟩
  · have hfilter : (declared.filter fun b => reading.uri? b.pfx != some b.uri) = declared := by
      rw [List.filter_eq_self]
      intro b hb
      rw [bne_iff_ne, ← stands?_eq_uri? (hc.declares b hb).notXml, hagrees]
      exact (hc.declares b hb).isNew
    rw [htag, helement, hfilter, withoutRepeats_eq_self hdistinct (by simp)]
  · rw [hremarks, hnamed, hknown, keysDistinct_iff.mpr hdistinct]
    simp only [List.mem_append, fault_mem_faultUnless, Bool.true_eq_false, or_false, false_or,
      not_or]
    refine ⟨⟨hnoFault, ?_⟩, ?_⟩
    · intro hmem'
      obtain ⟨b, hb, hfault⟩ := List.mem_flatMap.mp hmem'
      obtain ⟨a, ha, rfl⟩ := hmem b hb
      exact (hattribute a ha).2.2.2 hfault
    · intro hmem'
      obtain ⟨b, hb, hfault⟩ := List.mem_flatMap.mp hmem'
      obtain ⟨a, ha, rfl⟩ := hmem b hb
      rw [(hattribute a ha).2.2.1] at hfault
      cases hfault

/-- Inside a tag that is written nothing is in force but its declarations and those outside. -/
theorem Chosen.agrees_scope (hc : Chosen outer uri tag declared own xs) (next : Nat) :
    (chosenTag outer uri tag.name declared own xs next).scope.Agrees (declared ++ outer) := by
  rw [chosenTag, writtenTag]
  cases hu : uri with
  | none =>
    rw [hc.unspaced hu]
    simp only [Option.toList_none, List.append_nil]
    exact Scope.Agrees.refl _
  | some u =>
    obtain ⟨b, rfl, huri, hstands, -⟩ := hc.spaced u hu
    rw [Option.toList_some, List.append_assoc, List.singleton_append]
    exact Scope.agrees_insert (huri ▸ hstands)

end

end Manifest.Xml
