import Manifest.Proofs.Document.Joined
import Manifest.Proofs.Document.Known
import Manifest.Proofs.Maintenance.Settling
import Manifest.Proofs.Marks

/-! Documents whose leaves are on one line already. What is the same as such a document has its leaves on one
line as well, so nothing is left to do when a document that was written is read and written again. Sections
are where they were. -/

set_option autoImplicit false

namespace Manifest

open Xml (Scope)

/-! Leaves that are on one line. -/

/-- An element that collapsing leaves as it is is no wrapped leaf, and there is none in it. -/
theorem collapsed_of_fixed {nodes : List Node} (h : collapsedChildren nodes = nodes) :
    collapsedLeaf? nodes = none ∧ ∀ node ∈ nodes, node.collapse = node := by
  rcases collapsedChildren_cases nodes with ⟨hleaf, hsame⟩ | ⟨value, hwrapped, rfl, hleaf⟩
  · exact ⟨hleaf, List.map_inj_left.mp ((hsame.symm.trans h).trans (List.map_id nodes).symm)⟩
  · rw [hleaf, List.cons.injEq, Node.text.injEq] at h
    exact absurd h.1 hwrapped.2.2.2

/-- Text is the only child wherever it is that of what is the same. -/
theorem eq_of_same_text {value : String} (hvalue : Text.isBlankText value = false) {nodes : List Node}
    (ha : apart nodes) (h : sameNodes [.text value] nodes = true) : nodes = [.text value] := by
  have hnot : (Node.text value).isBlank = false := hvalue
  have htext : ∀ node : Node, node.isBlank = true → node.isText = true := by
    intro node hb
    cases node <;> first | rfl | cases hb
  have hsplit := List.takeWhile_append_dropWhile (p := Node.isBlank) (l := nodes)
  rw [sameNodes, hnot, if_neg (by simp)] at h
  split at h
  · cases h
  · next node rest hdrop =>
    rw [Bool.and_eq_true, sameNodes, List.all_eq_true] at h
    have hnode : node = .text value := by
      cases node <;> simp only [Node.same, Bool.false_eq_true, beq_iff_eq, false_and] at h
      rw [h.1]
    rw [hdrop, hnode] at hsplit
    rw [← hsplit] at ha
    obtain ⟨-, htail, hmeet⟩ := List.isChain_append.mp ha
    have hrest : rest = [] := by
      cases rest with
      | nil => rfl
      | cons x rest =>
        have hx := (List.isChain_cons.mp htail).1 x rfl rfl
        rw [htext x (h.2 x List.mem_cons_self)] at hx
        cases hx
    have hfront : nodes.takeWhile Node.isBlank = [] := by
      rcases List.eq_nil_or_concat (nodes.takeWhile Node.isBlank) with hnil | ⟨front, x, hconcat⟩
      · exact hnil
      · have hx : x ∈ nodes.takeWhile Node.isBlank := by rw [hconcat]; simp
        have hno := hmeet x (by rw [hconcat]; simp) _ rfl (htext x (List.mem_takeWhile_imp hx))
        cases hno
    rw [← hsplit, hfront, hrest]
    rfl

/-- What is the same as something that is no wrapped leaf is none. -/
theorem collapsedLeaf?_of_sameNodes {a b : List Node} (ha : apart b) (h : sameNodes a b = true)
    (hb : collapsedLeaf? b = none) : collapsedLeaf? a = none := by
  match a with
  | [.text value] =>
    cases hvalue : Text.isBlankText value with
    | true =>
      refine collapsedLeaf?_of_blank fun node hn _ => ?_
      rw [List.mem_singleton.mp hn]
      exact hvalue
    | false =>
      rw [eq_of_same_text hvalue ha h] at hb
      exact hb
  | [] => rfl
  | [.element _ _] => rfl
  | [.comment _] => rfl
  | [.instruction _ _] => rfl
  | _ :: _ :: _ => simp [collapsedLeaf?]

mutual

/-- What is the same as something with its leaves on one line has its leaves on one line. -/
theorem Node.collapse_of_same (x y : Node) (h : x.same y = true) (hy : y.ordinary)
    (hc : y.collapse = y) : x.collapse = x := by
  cases x with
  | element tag children =>
    cases y with
    | element tag' children' =>
      obtain ⟨-, ha, hordinary⟩ := hy
      rw [Node.same, Bool.and_eq_true] at h
      rw [collapse_element, Node.element.injEq] at hc
      obtain ⟨hleaf, hfixed⟩ := collapsed_of_fixed hc.2
      rw [collapse_element, collapsedChildren, collapsedLeaf?_of_sameNodes ha h.2 hleaf,
        Option.getD_none, List.map_congr_left (collapse_of_sameNodes children children' h.2
          (ordinaries_iff.mp hordinary) hfixed), List.map_id']
    | _ => cases h
  | _ => rfl

theorem collapse_of_sameNodes (xs ys : List Node) (h : sameNodes xs ys = true)
    (hy : ∀ y ∈ ys, y.ordinary) (hc : ∀ y ∈ ys, y.collapse = y) : ∀ x ∈ xs, x.collapse = x := by
  cases xs with
  | nil => exact nofun
  | cons x xs =>
    rw [sameNodes] at h
    split at h
    · next hb =>
      have hx : x.collapse = x := by cases x <;> first | rfl | cases hb
      exact List.forall_mem_cons.mpr ⟨hx, collapse_of_sameNodes xs ys h hy hc⟩
    · split at h
      · cases h
      · next y rest hdrop =>
        rw [Bool.and_eq_true] at h
        have hsub : ∀ z ∈ y :: rest, z ∈ ys :=
          fun z hz => (List.dropWhile_sublist _).subset (hdrop ▸ hz)
        have hyMem := hsub y List.mem_cons_self
        exact List.forall_mem_cons.mpr ⟨Node.collapse_of_same x y h.1 (hy y hyMem) (hc y hyMem),
          collapse_of_sameNodes xs rest h.2
            (fun z hz => hy z (hsub z (List.mem_cons_of_mem _ hz)))
            fun z hz => hc z (hsub z (List.mem_cons_of_mem _ hz))⟩

end

namespace Maintainer

variable (m : Maintainer)

theorem settled_settled (e : Element) : m.settled (m.settled e) = m.settled e := by
  rw [settled, settled]
  split
  · have h := e.toNode.collapse_collapse
    rw [Element.toNode, collapse_element, collapse_element, Node.element.injEq] at h
    rw [Element.collapse_eq, Element.collapse_eq]
    dsimp only
    rw [h.2]
  · rfl

theorem element?_settledNode (node : Node) :
    (m.settledNode node).element? = node.element?.map m.settled := by
  rw [settledNode, m.settled_eq]
  split
  · exact Element.element?_collapse node
  · simp

theorem elementsOf_map_settledNode (nodes : List Node) :
    elementsOf (nodes.map m.settledNode) = (elementsOf nodes).map m.settled := by
  rw [elementsOf, elementsOf, List.filterMap_map, List.map_filterMap]
  congr 1
  funext node
  exact m.element?_settledNode node

theorem settledNode_text (value : String) : m.settledNode (.text value) = .text value := by
  rw [settledNode]
  split <;> rfl

@[simp] theorem isText_settledNode (node : Node) : (m.settledNode node).isText = node.isText := by
  rw [settledNode]
  split <;> simp

/-- The tree is settled with other children of an element in it as they are settled. -/
theorem settled_setAt_children {x o : Element} {position : Position} (hat : x.at? position = some o)
    (children : List Node) :
    m.settled (x.setAt position children) = (m.settled x).setAt position (m.settledChildren children) := by
  induction position generalizing x with
  | nil =>
    have hset : ∀ (e : Element) (nodes : List Node), e.setAt [] nodes = ⟨e.tag, nodes⟩ :=
      fun _ _ => rfl
    rw [hset, hset, m.settled_element, m.settled_element x.tag x.children]
  | cons rank rest ih =>
    obtain ⟨front, c, back, heq, hrank, hc⟩ := Element.at?_cons hat
    have hsettled : (elementsOf (front.map m.settledNode)).length = rank := by
      rw [elementsOf_map_settledNode, List.length_map, hrank]
    rw [heq, Element.setAt_cons hrank, m.settled_of_no_leaf (collapsedLeaf?_append _ _ _),
      m.settled_of_no_leaf (collapsedLeaf?_append _ _ _), List.map_append, List.map_cons,
      ← toNode_settled, ih hc, List.map_append, List.map_cons, ← toNode_settled,
      Element.setAt_cons hsettled]

theorem settled_setAt {x o : Element} {position : Position} (hat : x.at? position = some o)
    {children : List Node} (hleaf : collapsedLeaf? children = none) :
    m.settled (x.setAt position children) =
      (m.settled x).setAt position (children.map m.settledNode) := by
  rw [m.settled_setAt_children hat, m.settledChildren_of_no_leaf hleaf]

variable {m}

/-- What is the same as something settled is settled. -/
theorem settled_of_same {e y : Element} (h : e.toNode.same y.toNode = true) (hy : y.toNode.ordinary)
    (hsettled : m.settled y = y) : m.settled e = e := by
  rw [settled] at hsettled ⊢
  split
  · next hcollapses =>
    rw [if_pos hcollapses, Element.collapse_eq] at hsettled
    have hchildren := congrArg Element.children hsettled
    dsimp only at hchildren
    have hnode : y.toNode.collapse = y.toNode := by
      rw [Element.toNode, collapse_element, hchildren]
    have hcollapse := Node.collapse_of_same e.toNode y.toNode h hy hnode
    rw [Element.toNode, collapse_element, Node.element.injEq] at hcollapse
    rw [Element.collapse_eq, hcollapse.2]
  · rfl

/-- What is in something settled is settled. -/
theorem settledNode_of_mem {o : Element} (h : m.settled o = o) :
    ∀ node ∈ o.children, m.settledNode node = node := by
  intro node hn
  rw [settled] at h
  rw [settledNode]
  split
  · next hcollapses =>
    rw [if_pos hcollapses, Element.collapse_eq] at h
    exact (collapsed_of_fixed (congrArg Element.children h)).2 node hn
  · rfl

theorem settled_of_at? {e o : Element} {position : Position} (hat : e.at? position = some o)
    (h : m.settled e = e) : m.settled o = o := by
  have hsettled := m.at?_settled position e
  rw [h, hat, Option.map_some, Option.some.injEq] at hsettled
  exact hsettled.symm

/-! The tags of what is settled. -/

theorem known_settled {origin : Scope} {e : Element} (h : e.toNode.known origin) :
    (m.settled e).toNode.known origin := by
  rw [toNode_settled, settledNode]
  split
  · exact e.toNode.known_collapse h
  · exact h

/-- The children of an element are settled one by one, also where it is a wrapped leaf. -/
theorem known_settledNode {origin : Scope} {o : Element}
    (h : knownAll origin (m.settled o).children) :
    ∀ node ∈ o.children, (m.settledNode node).known origin := by
  intro node hn
  rw [settled] at h
  rw [settledNode]
  split
  · next hcollapses =>
    rw [if_pos hcollapses, Element.collapse_eq] at h
    dsimp only at h
    rcases collapsedChildren_cases o.children with ⟨-, hsame⟩ | ⟨value, hwrapped, hchildren, -⟩
    · rw [hsame, knownAll_iff] at h
      exact h _ (List.mem_map_of_mem hn)
    · rw [hchildren, List.mem_singleton] at hn
      rw [hn]
      -- a wrapped leaf has some text
      rintro rfl
      exact hwrapped.1 rfl
  · next hno =>
    rw [if_neg hno, knownAll_iff] at h
    exact h node hn

end Maintainer

/-! Sections are where they were. -/

namespace Element

theorem locate_of_same {x y : Element} (h : x.toNode.same y.toNode = true) (path : List String) :
    x.locate path = y.locate path := by
  refine @locate_congr (fun a b => a.toNode.same b.toNode = true) (fun a b hab => ?_) x y h path
  exact (elements_of_sameNodes (sameNodes_of_same hab)).imp fun c d hcd => ⟨name_of_same hcd, hcd⟩

theorem locate_settled (m : Maintainer) (e : Element) (path : List String) :
    (m.settled e).locate path = e.locate path := by
  rw [Maintainer.settled]
  split
  · exact locate_collapse e path
  · rfl

end Element

end Manifest
