import Manifest.Proofs.Document.Root
import Manifest.Proofs.Entry
import Manifest.Proofs.Merge.Addition
import Manifest.Proofs.Section.Apart
import Manifest.Proofs.Section.Creation

/-! Properties that are given a value. What the document becomes is told by rules: at most what is inside the
property changes, or the property comes in, and with it its section if that is missing. The value is compared
as it is with the stripped text of the property, so a value with white space around it never counts as being
there. -/

set_option autoImplicit false

namespace Manifest

theorem Element.text_of_children (e : Element) {value : String} (h : e.children = textNodes value) :
    e.text = value := by
  have hsame : e = e.withText value := by rw [withText, ← textNodes, ← h]
  rw [hsame, text_withText]

namespace Document

/-- The properties of a document have one of a given name, and the first of that name has a rank among them. -/
structure HasProperty (d : Document) (place : Position) (name : String) (rank : Nat) (property : Element) :
    Prop where
  found : d.find none ["properties"] = .ok (some place, [])
  ranked : (d.at? place).bind (·.ranked? name) = some (property, rank)

/-- A new property. -/
def newProperty (name value : String) : Element :=
  (Element.ofName name).withText value

/-- New properties, of which there is one. -/
def newProperties (name value : String) : Element :=
  .ofName "properties" [(newProperty name value).toNode]

/-- What a document becomes when a property is given its value. -/
inductive Given (d : Document) (name value : String) : Document → Prop where
  /-- The property is there: it has the value already, or what is inside becomes the value. -/
  | there {place : Position} {rank : Nat} {property : Element} : d.HasProperty place name rank property →
      Given d name value (d.setChildren (place ++ [rank])
        (if Text.strip property.text = value then property.children else Element.textNodes value))
  /-- There are properties, but not this one: it comes in behind the last node that is not blank. -/
  | added {place : Position} {owner : Element} : d.find none ["properties"] = .ok (some place, []) →
      d.at? place = some owner → owner.child? name = none →
      Given d name value (d.setChildren place
        (withBlock owner.children (endPosition owner.children) [(newProperty name value).toNode]))
  /-- There are no properties: they come into the root, with this one in them. -/
  | created {root : Element} {records : List Record} {children : List Node} :
      d.find none ["properties"] = .ok (none, records) → d.root? = some root →
      GainsChild (newProperties name value) root.children children →
      Given d name value (d.setChildren [] children)

section
variable {d : Document} {root owner property : Element} {path : List String} {name value : String}
  {place : Position} {rank : Nat}

/-! What is found in a document that changes at, or below, what is found. -/

theorem exists_locate_of_find {records : List Record} (h : d.find none path = .ok (some place, records)) :
    ∃ root, d.root? = some root ∧ root.locate (pathBelow root path) = some place := by
  cases hroot : d.root? with
  | none =>
    rw [find, locate, hroot] at h
    cases h
  | some root =>
    rw [find_eq (at?_start hroot)] at h
    split at h
    · next way hway =>
      cases h
      exact ⟨root, rfl, hway⟩
    · cases h

theorem find_eq_of_root (hroot : d.root? = some root) (h : root.locate (pathBelow root path) = some place) :
    d.find none path = .ok (some place, []) := by
  rw [find_eq (at?_start hroot), pathFrom, h]
  rfl

theorem find_setChildren {records : List Record} (h : d.find none path = .ok (some place, records))
    (rest : Position) (children : List Node) :
    (d.setChildren (place ++ rest) children).find none path = .ok (some place, []) := by
  obtain ⟨root, hroot, hlocate⟩ := exists_locate_of_find h
  rw [setChildren_of_root hroot, Element.setAt_append]
  have hname : ∀ x : Element, (x.setAt rest children).name = x.name := name_setAt rest children
  apply find_eq_of_root (root?_withRoot d _ (by rw [hroot]; rfl))
  rw [pathBelow_congr (Element.name_modifyAt hname place root)]
  exact Element.locate_modifyAt hname hlocate

namespace HasProperty

theorem exists_owner (h : d.HasProperty place name rank property) :
    ∃ owner, d.at? place = some owner ∧ owner.ranked? name = some (property, rank) :=
  Option.bind_eq_some_iff.mp h.ranked

theorem at?_property (h : d.HasProperty place name rank property) :
    d.at? (place ++ [rank]) = some property := by
  obtain ⟨owner, howner, hranked⟩ := h.exists_owner
  obtain ⟨-, -, hat, -⟩ := Element.ranked?_eq_some hranked
  rw [at?_append howner, Element.at?, hat]
  rfl

/-- A property keeps its place when it gets other children. -/
theorem setChildren (h : d.HasProperty place name rank property) (children : List Node) :
    (d.setChildren (place ++ [rank]) children).HasProperty place name rank
      { property with children := children } := by
  obtain ⟨owner, howner, hranked⟩ := h.exists_owner
  refine ⟨find_setChildren h.found [rank] children, ?_⟩
  rw [at?_setChildren_append howner, Option.bind_some, Element.setAt_eq]
  exact Element.ranked?_changed hranked rfl

/-- A property that is there gets its value, unless its stripped text is the value already. -/
theorem setProperty_eq (h : d.HasProperty place name rank property) (value : String) :
    d.setProperty name value =
      .ok (if Text.strip property.text = value then ⟨d, place, false, []⟩
        else ⟨d.setChildren (place ++ [rank]) (Element.textNodes value), place, true, []⟩) := by
  obtain ⟨root, hroot, -⟩ := exists_locate_of_find h.found
  rw [setProperty, ensure_of_find (at?_start hroot) h.found]
  simp only [bind, Except.bind, h.ranked, beq_iff_eq]
  split
  · rfl
  · rfl

/-- Where the value is already, only a value that is stripped counts as being there. -/
theorem setProperty_again (h : d.HasProperty place name rank property)
    (hvalue : Text.strip property.text = value ∨ property.children = Element.textNodes value) :
    d.setProperty name value = .ok ⟨d, place, Text.strip value != value, []⟩ := by
  rw [h.setProperty_eq]
  rcases hvalue with hvalue | hvalue
  · have hstrip : Text.strip value = value := by rw [← hvalue, Text.strip_strip]
    rw [if_pos hvalue, hstrip, bne_self_eq_false]
  · have htext := property.text_of_children hvalue
    have hself : d.setChildren (place ++ [rank]) (Element.textNodes value) = d := by
      rw [← hvalue, setChildren_self h.at?_property]
    rw [htext, hself]
    split
    · next hstrip => rw [hstrip, bne_self_eq_false]
    · next hstrip => rw [bne_iff_ne.mpr hstrip]

end HasProperty

/-! Properties that come in. -/

theorem same_newProperty {existing : Element} (h : existing.name ≠ name) :
    Identity.property.same existing (newProperty name value) = false := by
  have hname : (newProperty name value).name = name := rfl
  simp [Identity.same, hname, h]

/-- A property that is not there is added at the end of its section. -/
theorem addMissing_newProperty (howner : d.at? place = some owner) (hno : owner.child? name = none)
    (value : String) :
    ∃ change, d.addMissing (some place) Identity.property.same none [newProperty name value] =
        .ok (d.setChildren place (withBlock owner.children (endPosition owner.children)
          [(newProperty name value).toNode]), change) := by
  have hnames : ∀ x ∈ elementsOf owner.children, x.name ≠ name := by
    simpa [Element.child?, childOf?] using hno
  have hnew : newcomers Identity.property.same id (elementsOf owner.children) [newProperty name value] =
      [newProperty name value] := by
    apply newcomers_eq_self
    · intro x hx c hc
      rw [List.mem_singleton.mp hc]
      exact same_newProperty (hnames x hx)
    · exact List.pairwise_singleton _ _
  have hchildren := (addMissing_eq Identity.property.same none owner.name [newProperty name value]
    owner.children).2
  rw [hnew] at hchildren
  refine ⟨Manifest.addMissing Identity.property.same none owner.name [newProperty name value]
    owner.children, ?_⟩
  rw [Document.addMissing, onSection_of_at? _ _ howner, hchildren]
  rfl

theorem hasProperty_added {records : List Record}
    (hfound : d.find none ["properties"] = .ok (some place, records)) (howner : d.at? place = some owner)
    (hno : owner.child? name = none) (value : String) :
    (d.setChildren place (withBlock owner.children (endPosition owner.children)
        [(newProperty name value).toNode])).HasProperty place name owner.elements.length
      (newProperty name value) := by
  have hkeeps := find_setChildren hfound [] (withBlock owner.children (endPosition owner.children)
    [(newProperty name value).toNode])
  rw [List.append_nil] at hkeeps
  refine ⟨hkeeps, ?_⟩
  rw [at?_setChildren _ howner, Option.bind_some]
  have helements : ({ owner with
      children := withBlock owner.children (endPosition owner.children) [(newProperty name value).toNode] } :
        Element).elements = owner.elements ++ [newProperty name value] := by
    rw [Element.elements, elementsOf_withBlock_endPosition]
    rfl
  exact Element.ranked?_of_elements_eq helements hno

/-- The root has no properties where none are found. -/
theorem ranked?_properties_of_find {records : List Record}
    (hfound : d.find none ["properties"] = .ok (none, records)) (hroot : d.root? = some root) :
    root.ranked? "properties" = none ∧ pathBelow root ["properties"] = ["properties"] := by
  rw [find_eq (at?_start hroot)] at hfound
  split at hfound
  · cases hfound
  · next hnone =>
    rw [pathFrom, pathBelow] at hnone
    rw [pathBelow]
    split at hnone
    · cases hnone
    · next hname =>
      rw [if_neg hname]
      refine ⟨?_, rfl⟩
      rw [Element.locate] at hnone
      split at hnone
      · assumption
      · cases hnone

/-- Properties that are missing come into the root together with the property. -/
theorem setProperty_of_missing {records : List Record}
    (hfound : d.find none ["properties"] = .ok (none, records)) (hroot : d.root? = some root)
    (name value : String) :
    ∃ log, d.setProperty name value =
      .ok ⟨d.withRoot (root.appendElement (newProperties name value)), [root.elements.length], true, log⟩ := by
  obtain ⟨hranked, hbelow⟩ := ranked?_properties_of_find hfound hroot
  obtain ⟨front, back, hlength, happend⟩ := root.exists_appendElement
  have hensure : d.ensure none ["properties"] =
      .ok (d.withRoot (root.appendElement (.ofName "properties")), [root.elements.length],
        chainRecords root.name ["properties"]) := by
    rw [ensure, hroot]
    dsimp only
    rw [hbelow, Element.ensure, hranked]
    rfl
  have hcreated : (d.withRoot (root.appendElement (.ofName "properties"))).root? =
      some (root.appendElement (.ofName "properties")) := root?_withRoot d _ (by rw [hroot]; rfl)
  have hat : (d.withRoot (root.appendElement (.ofName "properties"))).at? [root.elements.length] =
      some (.ofName "properties") := by
    rw [at?, hcreated, Option.bind_some, Element.at?, Element.elements_appendElement]
    simp [Element.at?]
  have hno : (Element.ofName "properties").child? name = none := rfl
  obtain ⟨change, hadd⟩ := addMissing_newProperty hat hno value
  have hset : (d.withRoot (root.appendElement (.ofName "properties"))).setChildren [root.elements.length]
        [(newProperty name value).toNode] =
      d.withRoot (root.appendElement (newProperties name value)) := by
    rw [setChildren_of_root hcreated, withRoot_withRoot, happend, happend, Element.setAt_cons hlength]
    rfl
  have hadd' : (d.withRoot (root.appendElement (.ofName "properties"))).addMissing (some [root.elements.length])
        Identity.property.same none [newProperty name value] =
      .ok (d.withRoot (root.appendElement (newProperties name value)), change) := by
    rw [hadd, ← hset]
    rfl
  rw [newProperty] at hadd'
  rw [setProperty, hensure]
  simp only [bind, Except.bind, hat, Option.bind_some, Element.ranked?_eq_none_iff.mpr hno, hadd']
  exact ⟨_, rfl⟩

theorem hasProperty_created {records : List Record}
    (hfound : d.find none ["properties"] = .ok (none, records)) (hroot : d.root? = some root)
    (name value : String) :
    (d.withRoot (root.appendElement (newProperties name value))).HasProperty
      [root.elements.length] name 0 (newProperty name value) := by
  obtain ⟨hranked, hbelow⟩ := ranked?_properties_of_find hfound hroot
  have hcreated := root?_withRoot d (root.appendElement (newProperties name value)) (by rw [hroot]; rfl)
  have hnone : root.child? (newProperties name value).name = none := Element.ranked?_eq_none_iff.mp hranked
  have hsection : (root.appendElement (newProperties name value)).ranked? "properties" =
      some (newProperties name value, root.elements.length) :=
    Element.ranked?_appendElement hnone
  obtain ⟨-, -, hat, -⟩ := Element.ranked?_eq_some hsection
  refine ⟨find_eq_of_root hcreated ?_, ?_⟩
  · rw [pathBelow_congr (Element.name_appendElement root _), hbelow, Element.locate, hsection]
    rfl
  · rw [at?, hcreated, Option.bind_some, Element.at?, hat]
    have hfirst : (newProperties name value).elements =
        (Element.ofName "properties").elements ++ [newProperty name value] := rfl
    exact Element.ranked?_of_elements_eq hfirst rfl

/-! What setting a property does. -/

/--
What setting a property leaves behind: what is inside the property is the value, or has it as its stripped text.
A change is reported unless the document stays as it was and the value is stripped.
-/
structure Sets (d : Document) (name value : String) (set : PropertySet) : Prop where
  given : Given d name value set.document
  reads : ∃ rank property, set.document.HasProperty set.position name rank property ∧
    (Text.strip property.text = value ∨ property.children = Element.textNodes value)
  changed_iff : set.changed = true ↔ set.document ≠ d ∨ Text.strip value ≠ value

theorem HasProperty.exists_sets (h : d.HasProperty place name rank property) (value : String) :
    ∃ set, d.setProperty name value = .ok set ∧ Sets d name value set := by
  have hset := h.setProperty_eq value
  have hgiven : Given d name value _ := .there h
  by_cases hvalue : Text.strip property.text = value
  · have hstrip : Text.strip value = value := by rw [← hvalue, Text.strip_strip]
    rw [if_pos hvalue] at hset hgiven
    rw [setChildren_self h.at?_property] at hgiven
    exact ⟨_, hset, hgiven, ⟨rank, property, h, .inl hvalue⟩, by simp [hstrip]⟩
  · rw [if_neg hvalue] at hset hgiven
    have hnew := h.setChildren (Element.textNodes value)
    refine ⟨_, hset, hgiven, ⟨rank, _, hnew, .inr rfl⟩, iff_of_true rfl ?_⟩
    rw [Classical.or_iff_not_imp_right, not_not]
    intro hstrip hsame
    -- had nothing changed, the text would be the value, which is stripped
    dsimp only at hsame
    rw [hsame] at hnew
    have hproperty := Option.some.inj (h.at?_property.symm.trans hnew.at?_property)
    have htext := property.text_of_children (congrArg Element.children hproperty)
    exact hvalue (by rw [htext, hstrip])

theorem exists_sets_of_absent (hfound : d.find none ["properties"] = .ok (some place, []))
    (howner : d.at? place = some owner) (hno : owner.child? name = none) (value : String) :
    ∃ set, d.setProperty name value = .ok set ∧ Sets d name value set := by
  obtain ⟨root, hroot, -⟩ := exists_locate_of_find hfound
  have hranked : (d.at? place).bind (·.ranked? name) = none := by
    rw [howner]
    exact Element.ranked?_eq_none_iff.mpr hno
  obtain ⟨change, hadd⟩ := addMissing_newProperty howner hno value
  have hproperty := hasProperty_added hfound howner hno value
  have hset : d.setProperty name value = .ok ⟨d.setChildren place
      (withBlock owner.children (endPosition owner.children) [(newProperty name value).toNode]), place, true,
        [] ++ change.log⟩ := by
    rw [newProperty] at hadd
    rw [setProperty, ensure_of_find (at?_start hroot) hfound]
    simp only [bind, Except.bind, hranked, hadd]
    rfl
  refine ⟨_, hset, .added hfound howner hno, ⟨_, _, hproperty, .inr rfl⟩, iff_of_true rfl (.inl ?_)⟩
  intro hsame
  dsimp only at hsame
  rw [hsame] at hproperty
  cases hranked.symm.trans hproperty.ranked

theorem exists_sets_of_missing {records : List Record}
    (hfound : d.find none ["properties"] = .ok (none, records)) (hroot : d.root? = some root)
    (name value : String) :
    ∃ set, d.setProperty name value = .ok set ∧ Sets d name value set := by
  obtain ⟨log, hset⟩ := setProperty_of_missing hfound hroot name value
  have hproperty := hasProperty_created hfound hroot name value
  obtain ⟨children, happend, hgains⟩ := root.gainsChild_appendElement (newProperties name value)
  have hdocument : d.withRoot (root.appendElement (newProperties name value)) = d.setChildren [] children := by
    rw [happend, setChildren_of_root hroot]
    rfl
  rw [hdocument] at hset hproperty
  refine ⟨_, hset, .created hfound hroot hgains, ⟨_, _, hproperty, .inr rfl⟩, iff_of_true rfl (.inl ?_)⟩
  intro hsame
  dsimp only at hsame
  rw [hsame] at hproperty
  cases hfound.symm.trans hproperty.found

theorem exists_sets (hroot : d.root? = some root) (name value : String) :
    ∃ set, d.setProperty name value = .ok set ∧ Sets d name value set := by
  have hspec := root.locate_spec (pathFrom none root ["properties"])
  have hfound := find_eq (at?_start hroot) ["properties"]
  cases hlocate : root.locate (pathFrom none root ["properties"]) with
  | none =>
    rw [hlocate] at hfound
    exact exists_sets_of_missing hfound hroot name value
  | some place =>
    rw [hlocate] at hfound hspec
    obtain ⟨owner, howner⟩ := Option.isSome_iff_exists.mp hspec.2
    have howner' : d.at? place = some owner := by rw [at?, hroot, Option.bind_some, hspec.1, howner]
    cases hranked : owner.ranked? name with
    | none => exact exists_sets_of_absent hfound howner' (Element.ranked?_eq_none_iff.mp hranked) value
    | some found =>
      have h : d.HasProperty place name found.2 found.1 :=
        ⟨hfound, by rw [howner', Option.bind_some, hranked]⟩
      exact h.exists_sets value

/--
After a property was set, the first child of its name in the properties has the stripped value as its stripped
text, and nothing but the property changed. Setting it again changes nothing. The reports tell whether the
document changed if, and only if, the value has no white space around it: otherwise a change is reported each
time.
-/
theorem setProperty_reports_iff (hroot : d.root? = some root) (name value : String) :
    ∃ set again, d.setProperty name value = .ok set ∧ set.document.setProperty name value = .ok again ∧
      Given d name value set.document ∧
      (∃ rank property, set.document.HasProperty set.position name rank property ∧
        Text.strip property.text = Text.strip value) ∧
      again.document = set.document ∧
      (set.changed = true ↔ set.document ≠ d ∨ Text.strip value ≠ value) ∧
      (again.changed = true ↔ Text.strip value ≠ value) ∧
      (((set.changed = true ↔ set.document ≠ d) ∧ again.changed = false) ↔ Text.strip value = value) := by
  obtain ⟨set, hset, hsets⟩ := exists_sets hroot name value
  obtain ⟨rank, property, hproperty, hvalue⟩ := hsets.reads
  have hagain := hproperty.setProperty_again hvalue
  refine ⟨set, _, hset, hagain, hsets.given, ⟨rank, property, hproperty, ?_⟩, rfl, hsets.changed_iff, ?_, ?_⟩
  · rcases hvalue with hvalue | hvalue
    · rw [← hvalue, Text.strip_strip]
    · rw [property.text_of_children hvalue]
  · exact bne_iff_ne
  · constructor
    · rintro ⟨-, hagain⟩
      exact bne_eq_false_iff_eq.mp hagain
    · intro hstrip
      rw [hsets.changed_iff, hstrip]
      simp

end

end Document

/-- A document with a property that has a value. -/
def onePropertyGiven : Document :=
  { nodes := [(Element.ofName "project" [(Element.ofName "properties"
      [(Element.ofName "a" [.text "x"]).toNode]).toNode]).toNode] }

theorem setProperty_reports_iff_stripped : onePropertyGiven.root?.isSome = true ∧
    ∃ set again, onePropertyGiven.setProperty "a" "y" = .ok set ∧ set.document.setProperty "a" "y" = .ok again ∧
      set.document = onePropertyGiven.setChildren [0, 0] [.text "y"] ∧ again.document = set.document ∧
      set.changed = true ∧ again.changed = false := by
  have hroot : onePropertyGiven.root? = some _ := rfl
  obtain ⟨set, again, hset, hagain, -, -, hsame, -, -, hreports⟩ :=
    Document.setProperty_reports_iff hroot "a" "y"
  have hresult : onePropertyGiven.setProperty "a" "y" = .ok _ := rfl
  cases hset.symm.trans hresult
  exact ⟨rfl, _, again, hset, hagain, rfl, hsame, rfl, (hreports.mpr (by decide)).2⟩

/-- A value with white space around it is reported as a change when it is set again. -/
theorem spacedValue_reported_again :
    ¬ ∀ set again, onePropertyGiven.setProperty "a" " x " = .ok set →
        set.document.setProperty "a" " x " = .ok again →
          (again.changed = true ↔ again.document ≠ set.document) ∧ again.changed = false := by
  intro h
  have hset : onePropertyGiven.setProperty "a" " x " = .ok _ := rfl
  have hagain := h _ _ hset rfl
  cases hagain.2

end Manifest
