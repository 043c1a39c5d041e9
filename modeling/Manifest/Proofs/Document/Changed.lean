import Manifest.Proofs.Document.Assembled
import Manifest.Proofs.Leaf
import Manifest.Proofs.Section.Position

/-! Documents after a change. Blank text counts neither for what a document is the same as nor for its
depth, so documents that differ by blank text alone are as good as equal. A document stays ordinary when
the children of an element are replaced by others that could have been read, and when leaves are
collapsed. -/

set_option autoImplicit false

namespace Manifest

/-! Without blank text. -/

mutual

/-- A node without the blank text in it. -/
def Node.bare : Node → Node
  | .element tag children => .element tag (bareNodes children)
  | node => node

/-- Some nodes without the blank text in them and among them. -/
def bareNodes : List Node → List Node
  | [] => []
  | node :: rest => if node.isBlank then bareNodes rest else node.bare :: bareNodes rest

end

@[simp] theorem Node.isBlank_bare (node : Node) : node.bare.isBlank = node.isBlank := by
  cases node <;> rfl

theorem bareNodes_eq (nodes : List Node) :
    bareNodes nodes = (nodes.filter (!·.isBlank)).map Node.bare := by
  induction nodes with
  | nil => rfl
  | cons node rest ih =>
    rw [bareNodes, List.filter_cons]
    cases node.isBlank <;> simp [ih]

theorem bareNodes_append (a b : List Node) : bareNodes (a ++ b) = bareNodes a ++ bareNodes b := by
  simp [bareNodes_eq]

theorem bareNodes_dropWhile (nodes : List Node) :
    bareNodes (nodes.dropWhile Node.isBlank) = bareNodes nodes := by
  induction nodes with
  | nil => rfl
  | cons node rest ih =>
    rw [List.dropWhile_cons]
    split
    · next h => rw [ih, bareNodes, if_pos h]
    · rfl

/-- What is behind white space in front is not blank. -/
theorem isBlank_of_dropWhile {nodes rest : List Node} {node : Node}
    (h : nodes.dropWhile Node.isBlank = node :: rest) : node.isBlank = false := by
  have hhead := List.head?_dropWhile_not Node.isBlank nodes
  rw [h] at hhead
  simpa using hhead

theorem dropWhile_bareNodes (nodes : List Node) :
    (bareNodes nodes).dropWhile Node.isBlank = bareNodes nodes := by
  rw [← bareNodes_dropWhile]
  cases h : nodes.dropWhile Node.isBlank with
  | nil => rfl
  | cons node rest => simp [bareNodes, isBlank_of_dropWhile h]

mutual

theorem Node.same_bare (x y : Node) : x.same y.bare = x.same y := by
  cases x with
  | element tag children =>
    cases y with
    | element tag' children' => rw [Node.bare, Node.same, Node.same, sameNodes_bareNodes]
    | _ => rfl
  | _ => cases y <;> rfl

/-- Blank text does not count for what some nodes are the same as. -/
theorem sameNodes_bareNodes (xs ys : List Node) : sameNodes xs (bareNodes ys) = sameNodes xs ys := by
  cases xs with
  | nil =>
    rw [sameNodes, sameNodes, bareNodes_eq, List.all_map, List.all_filter, Bool.eq_iff_iff,
      List.all_eq_true, List.all_eq_true]
    refine forall_congr' fun y => forall_congr' fun _ => ?_
    cases h : y.isBlank <;> simp [h]
  | cons x xs =>
    rw [sameNodes, sameNodes, dropWhile_bareNodes, sameNodes_bareNodes xs ys, ← bareNodes_dropWhile]
    cases h : ys.dropWhile Node.isBlank with
    | nil => rfl
    | cons y rest =>
      simp only [bareNodes, isBlank_of_dropWhile h, Bool.false_eq_true, if_false]
      rw [Node.same_bare x y, sameNodes_bareNodes xs rest]

end

mutual

theorem Node.depth_bare (node : Node) : node.bare.depth = node.depth := by
  cases node with
  | element tag children => rw [Node.bare, Node.depth, Node.depth, depthOf_bareNodes]
  | _ => rfl

theorem depthOf_bareNodes (nodes : List Node) : depthOf (bareNodes nodes) = depthOf nodes := by
  cases nodes with
  | nil => rfl
  | cons node rest =>
    rw [bareNodes, depthOf]
    split
    · next h =>
      have hdepth : node.depth = 0 := by
        cases node <;> first | rfl | cases h
      rw [depthOf_bareNodes rest, hdepth, Nat.zero_max]
    · rw [depthOf, Node.depth_bare node, depthOf_bareNodes rest]

end

theorem Document.same_of_bare {d e e' : Document} (h : bareNodes e.nodes = bareNodes e'.nodes) :
    d.same e = d.same e' := by
  rw [Document.same, Document.same, ← sameNodes_bareNodes, h, sameNodes_bareNodes]

theorem depthOf_eq_of_bare {nodes nodes' : List Node} (h : bareNodes nodes = bareNodes nodes') :
    depthOf nodes = depthOf nodes' := by
  rw [← depthOf_bareNodes, h, depthOf_bareNodes]

theorem bareNodes_setFirstElement {e e' : Element} (h : e.toNode.bare = e'.toNode.bare)
    (nodes : List Node) :
    bareNodes (Document.setFirstElement e nodes) = bareNodes (Document.setFirstElement e' nodes) := by
  induction nodes with
  | nil => rfl
  | cons node rest ih =>
    cases node <;> simp [Document.setFirstElement, bareNodes, ih, h]

/-! Leaves on one line. -/

@[simp] theorem Node.isBlank_collapse (node : Node) : node.collapse.isBlank = node.isBlank := by
  cases node with
  | element tag children =>
    rw [collapse_element]
    rfl
  | _ => rfl

/-- An element among the children keeps them from being a leaf. -/
theorem collapsedLeaf?_append (front back : List Node) (e : Element) :
    collapsedLeaf? (front ++ e.toNode :: back) = none := by
  rw [collapsedLeaf?.eq_def]
  split
  · next value h =>
    have hmem : e.toNode ∈ [Node.text value] := by
      rw [← h]
      simp
    cases List.mem_singleton.mp hmem
  · rfl

/-- Blank text is not the text of a wrapped leaf. -/
theorem collapsedLeaf?_of_blank {nodes : List Node}
    (h : ∀ node ∈ nodes, node.isText = true → node.isBlank = true) : collapsedLeaf? nodes = none := by
  rw [collapsedLeaf?.eq_def]
  split
  · next value =>
    have hblank : Text.isBlankText value = true := h (.text value) (by simp) rfl
    have hempty : (Text.strip value).isEmpty = true := (Text.isEmpty_strip value).trans hblank
    rw [unwrapped?]
    simp [hempty]
  · rfl

/-- What was collapsed is no wrapped leaf any more. -/
theorem collapsedLeaf?_map_collapse (nodes : List Node) :
    collapsedLeaf? (nodes.map Node.collapse) = collapsedLeaf? nodes := by
  match nodes with
  | [] => rfl
  | [.element tag children] =>
    rw [List.map_singleton, collapse_element]
    rfl
  | [.text _] => rfl
  | [.comment _] => rfl
  | [.instruction _ _] => rfl
  | _ :: _ :: _ => simp [collapsedLeaf?]

theorem unwrapped?_strip (value : String) : unwrapped? (Text.strip value) = none := by
  rw [unwrapped?]
  simp [Text.strip_strip]

mutual

/-- Collapsing twice is collapsing once. -/
theorem Node.collapse_collapse (node : Node) : node.collapse.collapse = node.collapse := by
  cases node with
  | element tag children =>
    rw [collapse_element, collapse_element]
    congr 1
    rcases collapsedChildren_cases children with ⟨hnone, hsame⟩ | ⟨value, -, -, hleaf⟩
    · rw [hsame, collapsedChildren, collapsedLeaf?_map_collapse, hnone, Option.getD_none,
        map_collapse_collapse children]
    · rw [hleaf, collapsedChildren, collapsedLeaf?, unwrapped?_strip]
      rfl
  | _ => rfl

theorem map_collapse_collapse (nodes : List Node) :
    (nodes.map Node.collapse).map Node.collapse = nodes.map Node.collapse := by
  cases nodes with
  | nil => rfl
  | cons node rest =>
    rw [List.map_cons, List.map_cons, Node.collapse_collapse node, map_collapse_collapse rest]

end

/-! Ordinary documents. -/

namespace Document

theorem mem_setFirstElement {e : Element} {nodes : List Node} {node : Node}
    (h : node ∈ setFirstElement e nodes) : node = e.toNode ∨ node ∈ nodes := by
  induction nodes with
  | nil => cases h
  | cons first rest ih =>
    cases first with
    | element tag children =>
      rcases List.mem_cons.mp h with h | h
      · exact Or.inl h
      · exact Or.inr (List.mem_cons_of_mem _ h)
    | _ =>
      rcases List.mem_cons.mp h with h | h
      · exact Or.inr (h ▸ List.mem_cons_self)
      · exact (ih h).imp id (List.mem_cons_of_mem _)

/-- The root of an ordinary document. -/
theorem IsOrdinary.exists_root {d : Document} {contents : Xml.Contents} (h : d.IsOrdinary contents) :
    ∃ root, d.root? = some root := by
  obtain ⟨root, helements, -⟩ := h.oneRoot
  exact ⟨root, by rw [Document.root?, helements]; rfl⟩

theorem IsOrdinary.root {d : Document} {contents : Xml.Contents} (h : d.IsOrdinary contents)
    {root : Element} (hroot : d.root? = some root) :
    root.toNode.ordinary ∧ elementsOf d.nodes = [root] ∧
      d.doctype = contents.doctype.map (·.render root.name) := by
  obtain ⟨root', hroot', hdoctype⟩ := h.oneRoot
  rw [Document.root?, hroot'] at hroot
  cases hroot
  have hmem : root ∈ elementsOf d.nodes := by simp [hroot']
  obtain ⟨node, hn, he⟩ := List.mem_filterMap.mp hmem
  refine ⟨?_, hroot', hdoctype⟩
  rw [Element.toNode_of_element? he]
  exact ordinaries_iff.mp h.ordinary node hn

theorem IsOrdinary.ordinary_at? {d : Document} {contents : Xml.Contents} (h : d.IsOrdinary contents)
    {position : Position} {e : Element} (he : d.at? position = some e) : e.toNode.ordinary := by
  obtain ⟨root, hroot, hat⟩ := at?_eq_some he
  exact shape_ordinary.at? hat (h.root hroot).1

/-- A document stays ordinary with another root of the same name. -/
theorem IsOrdinary.withRoot {d : Document} {contents : Xml.Contents} (h : d.IsOrdinary contents)
    {root new : Element} (hroot : d.root? = some root) (hnew : new.toNode.ordinary)
    (hname : new.name = root.name) : (d.withRoot new).IsOrdinary contents := by
  obtain ⟨-, helements, hdoctype⟩ := h.root hroot
  refine ⟨ordinaries_iff.mpr fun node hn => ?_, fun node hn => ?_, ⟨new, ?_, by rw [hname]; exact hdoctype⟩,
    h.quotable, h.encoding⟩
  · rcases mem_setFirstElement hn with rfl | hn
    · exact hnew
    · exact ordinaries_iff.mp h.ordinary node hn
  · rcases mem_setFirstElement hn with rfl | hn
    · rfl
    · exact h.noText node hn
  · rw [Document.withRoot, elementsOf_setFirstElement, helements]

@[simp] theorem encoding_setChildren (d : Document) (position : Position) (children : List Node) :
    (d.setChildren position children).encoding = d.encoding := by
  rw [setChildren, modifyAt]
  split <;> rfl

/-- A document stays ordinary with other children of an element that could have been read. -/
theorem IsOrdinary.setChildren {d : Document} {contents : Xml.Contents} (h : d.IsOrdinary contents)
    {position : Position} {owner : Element} (howner : d.at? position = some owner)
    {children : List Node} (ha : apart children) (hc : ordinaries children) :
    (d.setChildren position children).IsOrdinary contents := by
  obtain ⟨root, hroot, hat⟩ := at?_eq_some howner
  rw [setChildren_of_root hroot]
  exact h.withRoot hroot (shape_ordinary.setAt (h.root hroot).1 ha (ordinaries_iff.mp hc)) (name_setAt _ _ _)

end Document

end Manifest
