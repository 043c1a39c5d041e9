import Manifest.Leaf
import Manifest.Proofs.Section.Path

/-! What collapsing leaves does to an element: a wrapped leaf gets its stripped text, and of any other one each
child is collapsed. So names and the order of entries stay, and sections are where they were. -/

set_option autoImplicit false

namespace Manifest

/-- Whether a text is one line, with white space around it. -/
def IsWrapped (value : String) : Prop :=
  Text.strip value ≠ "" ∧ '\n' ∉ (Text.strip value).toList ∧ '\r' ∉ (Text.strip value).toList ∧
    Text.strip value ≠ value

instance (value : String) : Decidable (IsWrapped value) :=
  inferInstanceAs (Decidable (_ ∧ _ ∧ _ ∧ _))

theorem hasLineBreak_eq_false {s : String} : hasLineBreak s = false ↔ '\n' ∉ s.toList ∧ '\r' ∉ s.toList := by
  rw [hasLineBreak, List.any_eq_false]
  constructor
  · intro h
    exact ⟨fun hn => h _ hn rfl, fun hr => h _ hr rfl⟩
  · rintro ⟨hn, hr⟩ c hc hbreak
    rw [Bool.or_eq_true, beq_iff_eq, beq_iff_eq] at hbreak
    rcases hbreak with rfl | rfl
    · exact hn hc
    · exact hr hc

theorem unwrapped?_eq (value : String) :
    unwrapped? value = if IsWrapped value then some (Text.strip value) else none := by
  have hempty : (Text.strip value).isEmpty = false ↔ Text.strip value ≠ "" := by
    rw [← Bool.not_eq_true, String.isEmpty_iff]
  have hiff : ((Text.strip value).isEmpty || hasLineBreak (Text.strip value) || Text.strip value == value) =
      false ↔ IsWrapped value := by
    rw [Bool.or_eq_false_iff, Bool.or_eq_false_iff, hempty, hasLineBreak_eq_false, beq_eq_false_iff_ne,
      and_assoc, and_assoc, IsWrapped]
  rw [unwrapped?]
  by_cases h : IsWrapped value
  · rw [if_pos h, hiff.mpr h]
    rfl
  · rw [if_neg h, eq_true_of_ne_false (mt hiff.mp h)]
    rfl

theorem collapseNodes_eq_map (nodes : List Node) : collapseNodes nodes = nodes.map Node.collapse := by
  induction nodes with
  | nil => rfl
  | cons node rest ih => rw [collapseNodes, ih, List.map_cons]

/-- The children of an element after its leaves, or it itself, were collapsed. -/
def collapsedChildren (children : List Node) : List Node :=
  (collapsedLeaf? children).getD (children.map Node.collapse)

theorem collapse_element (tag : Tag) (children : List Node) :
    (Node.element tag children).collapse = .element tag (collapsedChildren children) := by
  rw [Node.collapse.eq_def, collapsedChildren]
  simp only
  cases h : collapsedLeaf? children with
  | none => rw [Option.getD_none, collapseNodes_eq_map]
  | some leaf => rfl

/-- Either an element is a wrapped leaf, or each of its children is collapsed. -/
theorem collapsedChildren_cases (children : List Node) :
    (collapsedLeaf? children = none ∧ collapsedChildren children = children.map Node.collapse) ∨
      ∃ value, IsWrapped value ∧ children = [.text value] ∧
        collapsedChildren children = [.text (Text.strip value)] := by
  cases hleaf : collapsedLeaf? children with
  | none => exact .inl ⟨rfl, by rw [collapsedChildren, hleaf, Option.getD_none]⟩
  | some leaf =>
    have hchildren : collapsedChildren children = leaf := by rw [collapsedChildren, hleaf, Option.getD_some]
    rw [collapsedLeaf?.eq_def] at hleaf
    split at hleaf
    · next value =>
      obtain ⟨stripped, hstripped, rfl⟩ := Option.map_eq_some_iff.mp hleaf
      rw [unwrapped?_eq] at hstripped
      split at hstripped
      · next hwrapped =>
        cases hstripped
        exact .inr ⟨value, hwrapped, rfl, hchildren⟩
      · cases hstripped
    · cases hleaf

namespace Element

theorem collapse_eq (e : Element) : e.collapse = ⟨e.tag, collapsedChildren e.children⟩ := by
  rw [collapse, toNode, collapse_element]
  rfl

@[simp] theorem name_collapse (e : Element) : e.collapse.name = e.name := by
  rw [collapse_eq]
  rfl

theorem element?_collapse (node : Node) :
    node.collapse.element? = node.element?.map Element.collapse := by
  cases node with
  | element tag children =>
    rw [collapse_element]
    simp [Node.element?, collapse_eq]
  | _ => rfl

theorem elementsOf_collapsedChildren (children : List Node) :
    elementsOf (collapsedChildren children) = (elementsOf children).map Element.collapse := by
  rcases collapsedChildren_cases children with ⟨-, h⟩ | ⟨value, -, rfl, h⟩
  · rw [h, elementsOf, elementsOf, List.filterMap_map, List.map_filterMap]
    congr 1
    funext node
    exact element?_collapse node
  · rw [h]
    rfl

theorem elements_collapse (e : Element) : e.collapse.elements = e.elements.map Element.collapse := by
  rw [collapse_eq, elements, elementsOf_collapsedChildren, elements]

theorem child?_collapse (e : Element) (name : String) :
    e.collapse.child? name = (e.child? name).map Element.collapse := by
  have h := elements_collapse e
  rw [elements, elements] at h
  rw [child?, childOf?, h, List.find?_map, child?, childOf?]
  congr 2
  funext child
  simp

theorem descend_collapse (e : Element) (path : List String) :
    e.collapse.descend path = (e.descend path).map Element.collapse := by
  induction path generalizing e with
  | nil => rfl
  | cons name rest ih =>
    rw [descend, descend, child?_collapse]
    cases e.child? name with
    | none => rfl
    | some child => exact ih child

theorem at?_collapse (position : Position) (e : Element) :
    e.collapse.at? position = (e.at? position).map Element.collapse := by
  induction position generalizing e with
  | nil => rfl
  | cons rank rest ih =>
    rw [at?, at?, elements_collapse, List.getElem?_map]
    cases e.elements[rank]? with
    | none => rfl
    | some child => exact ih child

theorem locate_collapse (e : Element) (path : List String) : e.collapse.locate path = e.locate path := by
  refine @locate_congr (fun a b => a = b.collapse) (fun a b hab => ?_) _ _ rfl path
  rw [hab, elements_collapse, List.forall₂_map_left_iff, List.forall₂_same]
  exact fun child _ => ⟨name_collapse child, rfl⟩

end Element

end Manifest
