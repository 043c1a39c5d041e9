import Manifest.Entry
import Manifest.Identity
import Manifest.Proofs.Merge.Block

/-! An entry with another version. It has the version that was stamped on it, and all its other children are
those that it had. What tells entries apart takes no notice of the version, and of two versions that are
stamped on an entry one after the other only the second is seen. -/

set_option autoImplicit false

namespace Manifest

/-- The first element that satisfies a condition, by its index among all nodes. -/
theorem findIdx?_element (p : Element → Bool) (nodes : List Node) :
    nodes.findIdx? (fun node => node.element?.any p) = (splitAtElement p nodes).map (·.1.length) := by
  induction nodes with
  | nil => rfl
  | cons node rest ih =>
    rw [List.findIdx?_cons, ih, splitAtElement]
    cases he : node.element? with
    | none => cases splitAtElement p rest <;> rfl
    | some e => cases hp : p e <;> cases splitAtElement p rest <;> simp [Option.filter, hp]

namespace Element

/-- The index of the first child of a given name, among all children. -/
def indexOf? (e : Element) (name : String) : Option Nat :=
  e.children.findIdx? fun node => node.element?.any (·.name == name)

theorem indexOf?_eq (e : Element) (name : String) :
    e.indexOf? name = (splitAtElement (·.name == name) e.children).map (·.1.length) :=
  findIdx?_element _ _

theorem indexOf?_of_children {e x : Element} {name : String} {front back : List Node}
    (h : e.children = front ++ x.toNode :: back) (hx : x.name = name)
    (hfront : ∀ y ∈ elementsOf front, (y.name == name) = false) : e.indexOf? name = some front.length := by
  rw [indexOf?_eq, h, splitAtElement_append x back hfront (beq_iff_eq.mpr hx)]
  rfl

theorem indexOf?_eq_none {e : Element} {name : String} (h : ∀ x ∈ e.elements, (x.name == name) = false) :
    e.indexOf? name = none := by
  rw [indexOf?_eq, splitAtElement_eq_none_iff.mpr h]
  rfl

@[simp] theorem text_withText (e : Element) (value : String) : (e.withText value).text = value := by
  rw [withText, text]
  dsimp only
  split
  · next hempty => simpa using (String.isEmpty_iff.mp hempty).symm
  · simp [Node.textValue]

/-! Where a version is put. -/

/-- The child that holds a version, in place of the one there was, if there was any. -/
def versionChild : Option Element → String → Element
  | some old, version => old.withText version
  | none, version => leaf "version" version

theorem text_versionChild (old : Option Element) (version : String) :
    (versionChild old version).text = version := by
  cases old with
  | none => simp [versionChild, leaf, ofName, text, Node.textValue]
  | some old => exact old.text_withText version

theorem name_versionChild {old : Option Element} (h : ∀ x ∈ old, x.name = "version") (version : String) :
    (versionChild old version).name = "version" := by
  cases old with
  | none => rfl
  | some old => exact h old rfl

theorem length_children_versionChild (old : Option Element) (version : String) :
    (versionChild old version).children.length ≤ 1 := by
  cases old with
  | none => exact Nat.le_refl 1
  | some old =>
    rw [versionChild, withText]
    dsimp only
    split <;> simp

/-- A child that holds a version holds another one as if it were the first. -/
theorem withText_versionChild (old : Option Element) (version : String) {later : String} (hne : later ≠ "") :
    (versionChild old version).withText later = versionChild old later := by
  have hempty : later.isEmpty = false := by simpa using hne
  cases old with
  | none =>
    rw [versionChild, withText, hempty]
    rfl
  | some old => rfl

/--
Where a version is put in an entry: between a front without any version and a back, in place of the first
version there is; if there is none, right behind the first artifact, or at the end.
-/
structure VersionPlace (e : Element) (front : List Node) (old : Option Element) (back : List Node) : Prop where
  children : e.children = front ++ ((old.map toNode).toList ++ back)
  named : ∀ x ∈ old, x.name = "version"
  first : ∀ x ∈ elementsOf front, (x.name == "version") = false
  only : old = none → ∀ x ∈ elementsOf back, (x.name == "version") = false
  behind : old = none → front.length = ((e.indexOf? "artifactId").map (· + 1)).getD e.children.length
  stamped : ∀ version,
    e.withVersion version = { e with children := front ++ (versionChild old version).toNode :: back }

/-- There is a place for a version, whatever the version is. -/
theorem exists_versionPlace (e : Element) : ∃ front old back, e.VersionPlace front old back := by
  cases hversion : splitAtElement (·.name == "version") e.children with
  | some split =>
    obtain ⟨before, old, after⟩ := split
    obtain ⟨hchildren, hname, hbefore⟩ := splitAtElement_eq_some hversion
    refine ⟨before, some old, after, hchildren, ?_, hbefore, nofun, nofun, fun version => ?_⟩
    · rintro x ⟨⟩
      exact eq_of_beq hname
    · rw [withVersion, hversion]
      rfl
  | none =>
    have hnone := splitAtElement_eq_none_iff.mp hversion
    cases hartifact : splitAtElement (·.name == "artifactId") e.children with
    | some split =>
      obtain ⟨before, artifact, after⟩ := split
      obtain ⟨hchildren, -, -⟩ := splitAtElement_eq_some hartifact
      have happend : e.children = (before ++ [artifact.toNode]) ++ after := by simp [hchildren]
      rw [happend, elementsOf_append] at hnone
      refine ⟨before ++ [artifact.toNode], none, after, happend, nofun,
        fun x hx => hnone x (List.mem_append_left _ hx),
        fun _ x hx => hnone x (List.mem_append_right _ hx), fun _ => ?_, fun version => ?_⟩
      · rw [indexOf?_eq, hartifact]
        simp
      · rw [withVersion, hversion, hartifact]
        simp [versionChild]
    | none =>
      refine ⟨e.children, none, [], by simp, nofun, hnone, nofun, fun _ => ?_, fun version => ?_⟩
      · rw [indexOf?_eq, hartifact]
        rfl
      · rw [withVersion, hversion, hartifact]
        rfl

/-- One child is put in place of the first version, or where there is none yet. -/
theorem elements_withVersion (e : Element) (version : String) :
    ∃ (front old : List Element) (new : Element) (back : List Element),
      e.elements = front ++ (old ++ back) ∧
      (e.withVersion version).elements = front ++ new :: back ∧
      new.name = "version" ∧ new.text = version ∧ new.children.length ≤ 1 ∧
      (∀ x ∈ front, (x.name == "version") = false) ∧ ∀ x ∈ old, x.name = "version" := by
  obtain ⟨front, old, back, hplace⟩ := e.exists_versionPlace
  refine ⟨elementsOf front, old.toList, versionChild old version, elementsOf back, ?_, ?_,
    name_versionChild hplace.named version, text_versionChild old version,
    length_children_versionChild old version, hplace.first, fun x hx => hplace.named x (by simpa using hx)⟩
  · rw [elements, hplace.children, elementsOf_append, elementsOf_append]
    cases old <;> rfl
  · rw [elements, hplace.stamped, elementsOf_append, elementsOf_toNode_cons]

theorem child?_withVersion_of_ne (e : Element) (version : String) {name : String} (h : name ≠ "version") :
    (e.withVersion version).child? name = e.child? name := by
  obtain ⟨front, old, new, back, helements, hnew, hname, -, -, -, hold⟩ := elements_withVersion e version
  have hno : ∀ x : Element, x.name = "version" → (x.name == name) = false := by
    intro x hx
    rw [hx]
    exact beq_false_of_ne (Ne.symm h)
  have hnone : old.find? (·.name == name) = none :=
    List.find?_eq_none.mpr fun x hx => by rw [hno x (hold x hx)]; exact Bool.false_ne_true
  rw [elements] at helements hnew
  rw [child?, childOf?, hnew, child?, childOf?, helements, List.find?_append, List.find?_append,
    List.find?_append, List.find?_cons, hno new hname, hnone, Option.none_or]

theorem child?_withVersion (e : Element) (version : String) :
    ∃ x, (e.withVersion version).child? "version" = some x ∧ x.text = version ∧
      x.children.length ≤ 1 := by
  obtain ⟨front, old, new, back, -, hnew, hname, htext, hlength, hfront, -⟩ := elements_withVersion e version
  rw [elements] at hnew
  refine ⟨new, ?_, htext, hlength⟩
  rw [child?, childOf?, hnew, List.find?_append,
    List.find?_eq_none.mpr fun x hx => by rw [hfront x hx]; exact Bool.false_ne_true, Option.none_or,
    List.find?_cons, hname]
  rfl

/-- The fields of an entry but its version stay as they are when a version is stamped on it. -/
theorem childText?_withVersion_of_ne (e : Element) (version : String) {name : String}
    (h : name ≠ "version") : (e.withVersion version).childText? name = e.childText? name := by
  rw [childText?, childText?, child?_withVersion_of_ne e version h]

theorem childText?_withVersion (e : Element) {version : String} (hstrip : Text.strip version = version)
    (hne : version ≠ "") : (e.withVersion version).childText? "version" = some version := by
  obtain ⟨x, hx, htext, -⟩ := child?_withVersion e version
  rw [childText?, hx, Option.bind_some, htext, hstrip, if_neg]
  simpa using hne

/-- A version that is stamped on an entry is the text of a child of it, which is new if there was none. -/
theorem exists_withVersion (e : Element) {version : String} (hne : version ≠ "") :
    ∃ (front : List Node) (old : Option Element) (back : List Node),
      e.children = front ++ ((old.map Element.toNode).toList ++ back) ∧
      e.withVersion version =
        { e with children := front ++ ((old.getD (.ofName "version")).withText version).toNode :: back } := by
  obtain ⟨front, old, back, hplace⟩ := e.exists_versionPlace
  refine ⟨front, old, back, hplace.children, ?_⟩
  have hchild : versionChild old version = (old.getD (.ofName "version")).withText version := by
    cases old with
    | none => exact (withText_versionChild none "" hne).symm
    | some old => rfl
  rw [hplace.stamped, hchild]

@[simp] theorem tag_withVersion (e : Element) (version : String) : (e.withVersion version).tag = e.tag := by
  obtain ⟨front, old, back, hplace⟩ := e.exists_versionPlace
  rw [hplace.stamped]

@[simp] theorem name_withVersion (e : Element) (version : String) : (e.withVersion version).name = e.name :=
  congrArg Tag.name (e.tag_withVersion version)

/-- A stamped version is no text of the entry itself. -/
@[simp] theorem text_withVersion (e : Element) (version : String) :
    (e.withVersion version).text = e.text := by
  obtain ⟨front, old, back, hplace⟩ := e.exists_versionPlace
  rw [text, text, hplace.stamped, hplace.children]
  cases old <;> simp [Node.textValue, toNode, String.join_append]

/-- Of two versions that are stamped on an entry the second is left, unless it is empty. -/
theorem withVersion_withVersion (e : Element) (version : String) {later : String} (hne : later ≠ "") :
    (e.withVersion version).withVersion later = e.withVersion later := by
  obtain ⟨front, old, back, hplace⟩ := e.exists_versionPlace
  have hsplit := splitAtElement_append (versionChild old version) back hplace.first
    (beq_iff_eq.mpr (name_versionChild hplace.named version))
  rw [hplace.stamped, hplace.stamped, withVersion]
  dsimp only
  rw [hsplit]
  dsimp only
  rw [withText_versionChild old version hne]

/-! What is left as it was. -/

/--
Whether an entry is what another one becomes when it is given a version: the version is what its first
version child reads, and its children are those of the other one, in their order, but for that child. It
stands where there was a version, else right behind the first artifact, or last.
-/
structure IsStamped (e : Element) (version : String) (stamped : Element) : Prop where
  tag : stamped.tag = e.tag
  reads : ∃ child, stamped.child? "version" = some child ∧ Text.strip child.text = Text.strip version
  field : stamped.childText? "version" =
    if (Text.strip version).isEmpty then none else some (Text.strip version)
  overwritten : ∀ index, e.indexOf? "version" = some index →
    stamped.indexOf? "version" = some index ∧
      stamped.children.eraseIdx index = e.children.eraseIdx index
  inserted : e.indexOf? "version" = none →
    ∃ index, stamped.indexOf? "version" = some index ∧
      index = ((e.indexOf? "artifactId").map (· + 1)).getD e.children.length ∧
      stamped.children.eraseIdx index = e.children

theorem eraseIdx_between (front : List Node) (node : Node) (back : List Node) :
    (front ++ node :: back).eraseIdx front.length = front ++ back := by
  rw [List.eraseIdx_append_of_length_le (Nat.le_refl _), Nat.sub_self, List.eraseIdx_cons_zero]

theorem isStamped_withVersion (e : Element) (version : String) :
    e.IsStamped version (e.withVersion version) := by
  obtain ⟨front, old, back, hplace⟩ := e.exists_versionPlace
  obtain ⟨child, hchild, htext, -⟩ := e.child?_withVersion version
  have hstamped : (e.withVersion version).children = front ++ (versionChild old version).toNode :: back := by
    rw [hplace.stamped]
  have hindex : (e.withVersion version).indexOf? "version" = some front.length :=
    indexOf?_of_children hstamped (name_versionChild hplace.named version) hplace.first
  have herase : (e.withVersion version).children.eraseIdx front.length = front ++ back := by
    rw [hstamped, eraseIdx_between]
  have hchildren := hplace.children
  refine ⟨e.tag_withVersion version, ⟨child, hchild, congrArg Text.strip htext⟩, ?_, ?_, ?_⟩
  · rw [childText?, hchild, Option.bind_some, htext]
  · intro index hold
    cases old with
    | none =>
      have hnone : e.indexOf? "version" = none := by
        refine indexOf?_eq_none fun x hx => ?_
        rw [elements, hchildren, elementsOf_append] at hx
        exact (List.mem_append.mp hx).elim (hplace.first x) (hplace.only rfl x)
      rw [hnone] at hold
      cases hold
    | some old =>
      have hsame := indexOf?_of_children hchildren (hplace.named old rfl) hplace.first
      rw [hsame, Option.some.injEq] at hold
      subst hold
      refine ⟨hindex, ?_⟩
      rw [herase, hchildren]
      exact (eraseIdx_between front old.toNode back).symm
  · intro hnone
    cases old with
    | none => exact ⟨front.length, hindex, hplace.behind rfl, herase.trans hchildren.symm⟩
    | some old =>
      rw [indexOf?_of_children hchildren (hplace.named old rfl) hplace.first] at hnone
      cases hnone

end Element

/-! What takes no notice of a version. -/

/-- A stamped version makes no difference to what an entry is the same as. -/
theorem Identity.same_withVersion_left (identity : Identity) (e other : Element) (version : String) :
    identity.same (e.withVersion version) other = identity.same e other := by
  cases identity <;> simp [Identity.same, sameCoordinates, samePlugin,
    Element.childText?_withVersion_of_ne]

theorem Identity.same_withVersion_right (identity : Identity) (e other : Element) (version : String) :
    identity.same other (e.withVersion version) = identity.same other e := by
  cases identity <;> simp [Identity.same, sameCoordinates, samePlugin,
    Element.childText?_withVersion_of_ne]

theorem Anchor.holds_withVersion (anchor : Anchor) (e : Element) (version : String) :
    anchor.holds (e.withVersion version) = anchor.holds e := by
  simp [Anchor.holds, Element.childText?_withVersion_of_ne]

/--
An entry with another version is the same as other entries where it was before, from either side, and is
picked by the anchors that picked it. The version is read from it, and all its other children are kept in
order. A version that is not empty takes the place of one that was stamped before.
-/
theorem withVersion_keepsEntry (e : Element) (version : String) :
    (∀ (identity : Identity) (other : Element),
      identity.same (e.withVersion version) other = identity.same e other ∧
        identity.same other (e.withVersion version) = identity.same other e) ∧
    (∀ anchor : Anchor, anchor.holds (e.withVersion version) = anchor.holds e) ∧
    e.IsStamped version (e.withVersion version) ∧
    ∀ later, later ≠ "" → (e.withVersion version).withVersion later = e.withVersion later :=
  ⟨fun identity other => ⟨identity.same_withVersion_left e other version,
      identity.same_withVersion_right e other version⟩,
    fun anchor => anchor.holds_withVersion e version, e.isStamped_withVersion version,
    fun _ hne => e.withVersion_withVersion version hne⟩

/-- A plugin with a comment between two artifacts, of which the second one holds a version of its own. -/
def twoArtifacts : Element :=
  .ofName "plugin" [(Element.leaf "artifactId" " a ").toNode, .comment "c",
    (Element.ofName "artifactId" [(Element.leaf "version" "0").toNode]).toNode]

theorem withVersion_keepsEntry_twoArtifacts :
    Identity.plugin.same (twoArtifacts.withVersion " ") twoArtifacts = true ∧
      (twoArtifacts.withVersion " ").indexOf? "version" = some 1 ∧ "2" ≠ "" ∧
      (twoArtifacts.withVersion " ").withVersion "2" = twoArtifacts.withVersion "2" := by
  obtain ⟨hsame, -, hstamped, hagain⟩ := withVersion_keepsEntry twoArtifacts " "
  obtain ⟨index, hindex, hplace, -⟩ := hstamped.inserted (by decide +kernel)
  have hbehind : ((twoArtifacts.indexOf? "artifactId").map (· + 1)).getD twoArtifacts.children.length = 1 := by
    decide +kernel
  refine ⟨?_, by rw [hindex, hplace, hbehind], by decide, hagain "2" (by decide)⟩
  rw [(hsame .plugin twoArtifacts).1]
  decide +kernel

end Manifest
