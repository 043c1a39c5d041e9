import Manifest.Merge
import Mathlib.Data.List.TakeWhile

/-! Where merges put nodes. Removal keeps what is not unwanted, in order. What an addition or a
carrying brings in stands in one block: at the place that the anchor picks among the nodes before
the call, or after the last node that is not blank. -/

set_option autoImplicit false

namespace Manifest

theorem elementsOf_insertNodes (new nodes : List Node) (index : Nat) :
    elementsOf (insertNodes new index nodes) =
      elementsOf (nodes.take index) ++ (elementsOf new ++ elementsOf (nodes.drop index)) := by
  simp [insertNodes]

theorem elementsOf_take_drop (nodes : List Node) (index : Nat) :
    elementsOf (nodes.take index) ++ elementsOf (nodes.drop index) = elementsOf nodes := by
  rw [← elementsOf_append, List.take_append_drop]

@[simp] theorem elementsOf_map_toNode (es : List Element) :
    elementsOf (es.map Element.toNode) = es := by
  induction es with
  | nil => rfl
  | cons e es ih =>
    simp only [elementsOf, List.map_cons, List.filterMap_cons, Element.element?_toNode] at ih ⊢
    rw [ih]

theorem isBlank_of_element? {node : Node} {e : Element} (h : node.element? = some e) :
    node.isBlank = false := by
  cases node <;> simp_all [Node.element?, Node.isBlank]

@[simp] theorem isBlank_toNode (e : Element) : e.toNode.isBlank = false := rfl

theorem elementsOf_eq_nil_of_blank {nodes : List Node} (h : ∀ n ∈ nodes, n.isBlank = true) :
    elementsOf nodes = [] := by
  apply List.filterMap_eq_nil_iff.mpr
  intro n hn
  cases he : n.element? with
  | none => rfl
  | some e =>
    have hb := isBlank_of_element? he
    rw [h n hn] at hb
    cases hb

/-! The end of a section. -/

/-- The nodes up to the end of a section, and the white space behind it. -/
theorem exists_eq_append_endPosition (nodes : List Node) :
    ∃ front tail, nodes = front ++ tail ∧ endPosition nodes = front.length ∧
      (∀ n ∈ tail, n.isBlank = true) ∧ ∀ n ∈ front.getLast?, n.isBlank = false := by
  refine ⟨(nodes.reverse.dropWhile Node.isBlank).reverse,
    (nodes.reverse.takeWhile Node.isBlank).reverse, ?_, ?_, ?_, ?_⟩
  · rw [← List.reverse_append, List.takeWhile_append_dropWhile, List.reverse_reverse]
  · rw [List.length_reverse, endPosition]
  · intro n hn
    exact List.all_eq_true.mp List.all_takeWhile n (List.mem_reverse.mp hn)
  · intro n hn
    rw [List.getLast?_reverse] at hn
    have h := List.head?_dropWhile_not Node.isBlank nodes.reverse
    rw [hn] at h
    simpa using h

/-- Behind the end of a section there is nothing but white space. -/
theorem isBlank_of_mem_drop_endPosition {nodes : List Node} {n : Node}
    (h : n ∈ nodes.drop (endPosition nodes)) : n.isBlank = true := by
  obtain ⟨front, tail, hnodes, hend, htail, -⟩ := exists_eq_append_endPosition nodes
  rw [hend, hnodes, List.drop_left] at h
  exact htail n h

theorem endPosition_le (nodes : List Node) : endPosition nodes ≤ nodes.length := by
  obtain ⟨front, tail, hnodes, hend, -⟩ := exists_eq_append_endPosition nodes
  rw [hend, hnodes, List.length_append]
  exact Nat.le_add_right _ _

@[simp] theorem elementsOf_take_endPosition (nodes : List Node) :
    elementsOf (nodes.take (endPosition nodes)) = elementsOf nodes := by
  rw [← elementsOf_take_drop nodes (endPosition nodes),
    elementsOf_eq_nil_of_blank fun n hn => isBlank_of_mem_drop_endPosition hn, List.append_nil]

@[simp] theorem elementsOf_drop_endPosition (nodes : List Node) :
    elementsOf (nodes.drop (endPosition nodes)) = [] :=
  elementsOf_eq_nil_of_blank fun _ hn => isBlank_of_mem_drop_endPosition hn

/-- White space behind a node that is not blank does not move the end. -/
theorem endPosition_of_blank_tail (front : List Node) {n : Node} {tail : List Node}
    (hn : n.isBlank = false) (ht : ∀ t ∈ tail, t.isBlank = true) :
    endPosition (front ++ n :: tail) = front.length + 1 := by
  have hr : (front ++ n :: tail).reverse = tail.reverse ++ (n :: front.reverse) := by simp
  rw [endPosition, hr, List.dropWhile_append_of_pos (by simpa using ht),
    List.dropWhile_cons_of_neg (by simp [hn])]
  simp

theorem endPosition_of_blank {nodes : List Node} (h : ∀ n ∈ nodes, n.isBlank = true) :
    endPosition nodes = 0 := by
  rw [endPosition, List.length_eq_zero_iff]
  simpa [List.dropWhile_eq_nil_iff] using h

/-! The place after an anchor. -/

theorem splitAtElement_eq_none_iff {p : Element → Bool} {nodes : List Node} :
    splitAtElement p nodes = none ↔ ∀ e ∈ elementsOf nodes, p e = false := by
  induction nodes with
  | nil => simp [splitAtElement]
  | cons node rest ih =>
    rw [splitAtElement]
    cases he : node.element? with
    | none => simp [ih, elementsOf, he]
    | some e =>
      cases hp : p e with
      | true => simp [elementsOf, he, Option.filter, hp]
      | false => simp [ih, elementsOf, he, Option.filter, hp]

/-- The first element that satisfies a condition, behind nodes with no such element. -/
theorem splitAtElement_append {p : Element → Bool} {before : List Node} (e : Element)
    (after : List Node) (hb : ∀ x ∈ elementsOf before, p x = false) (hp : p e = true) :
    splitAtElement p (before ++ e.toNode :: after) = some (before, e, after) := by
  induction before with
  | nil => simp [splitAtElement, Option.filter, hp]
  | cons node rest ih =>
    rw [List.cons_append, splitAtElement]
    cases he : node.element? with
    | none =>
      rw [ih fun x hx => hb x (by simpa [elementsOf, he] using hx)]
      rfl
    | some x =>
      have hx : p x = false := hb x (by simp [elementsOf, he])
      rw [ih fun y hy => hb y (by simp only [elementsOf, List.filterMap_cons, he]; exact .tail _ hy)]
      simp [Option.filter, hx]

/-- There is no element in front of the first one. -/
theorem elementsOf_of_splitAtElement {nodes front back : List Node} {e : Element}
    (h : splitAtElement (fun _ => true) nodes = some (front, e, back)) : elementsOf front = [] := by
  obtain ⟨-, -, hno⟩ := splitAtElement_eq_some h
  exact List.eq_nil_iff_forall_not_mem.mpr fun x hx => by simpa using hno x hx

theorem afterAnchor?_eq_none_iff {anchor : Element → Bool} {nodes : List Node} :
    afterAnchor? anchor nodes = none ↔ ∀ e ∈ elementsOf nodes, anchor e = false := by
  rw [afterAnchor?, Option.map_eq_none_iff, splitAtElement_eq_none_iff]

/-- The place after an anchor is right behind the first element that the anchor picks. -/
theorem afterAnchor?_eq_some {anchor : Element → Bool} {nodes : List Node} {index : Nat}
    (h : afterAnchor? anchor nodes = some index) :
    ∃ before e after, nodes = before ++ e.toNode :: after ∧ index = before.length + 1 ∧
      anchor e = true ∧ ∀ x ∈ elementsOf before, anchor x = false := by
  obtain ⟨⟨before, e, after⟩, hs, rfl⟩ := Option.map_eq_some_iff.mp h
  obtain ⟨hnodes, hp, hno⟩ := splitAtElement_eq_some hs
  exact ⟨before, e, after, hnodes, rfl, hp, hno⟩

theorem afterAnchor?_append {anchor : Element → Bool} {before : List Node} (e : Element)
    (after : List Node) (hb : ∀ x ∈ elementsOf before, anchor x = false) (he : anchor e = true) :
    afterAnchor? anchor (before ++ e.toNode :: after) = some (before.length + 1) := by
  rw [afterAnchor?, splitAtElement_append e after hb he]
  rfl

/-- Where the first of some new entries goes: behind the anchor, or to the end. -/
def additionIndex (anchor : Option (Element → Bool)) (nodes : List Node) : Nat :=
  (anchor.bind (afterAnchor? · nodes)).getD (endPosition nodes)

theorem additionIndex_le (anchor : Option (Element → Bool)) (nodes : List Node) :
    additionIndex anchor nodes ≤ nodes.length := by
  rw [additionIndex]
  cases h : anchor.bind (afterAnchor? · nodes) with
  | none => exact endPosition_le nodes
  | some index =>
    obtain ⟨a, -, ha⟩ := Option.bind_eq_some_iff.mp h
    obtain ⟨before, e, after, hnodes, hi, -⟩ := afterAnchor?_eq_some ha
    subst hnodes hi
    simp

end Manifest
