import Manifest.Proofs.Document.Changed
import Manifest.Proofs.Maintenance.Keeping

/-! Documents as they are written, with their leaves on one line if so configured. -/

set_option autoImplicit false

namespace Manifest

open Manifest.Action (Gives gives_bind_iff gives_pure_iff gives_record_iff)

namespace Maintainer

variable (m : Maintainer)

/-- An entry as it stands in a document that is written. -/
def settled (e : Element) : Element :=
  if m.collapses then e.collapse else e

/-- A node as it stands in a document that is written. -/
def settledNode (node : Node) : Node :=
  if m.collapses then node.collapse else node

/-- A document as it is written, its leaves on one line if so configured. -/
def settledDocument (d : Document) : Document :=
  (d.root?.map fun root => d.withRoot (m.settled root)).getD d

theorem toNode_settled (e : Element) : (m.settled e).toNode = m.settledNode e.toNode := by
  rw [settled, settledNode]
  split
  · rw [Element.collapse_eq, Element.toNode, Element.toNode, collapse_element]
  · rfl

@[simp] theorem name_settled (e : Element) : (m.settled e).name = e.name := by
  rw [settled]
  split
  · exact Element.name_collapse e
  · rfl

@[simp] theorem isBlank_settledNode (node : Node) :
    (m.settledNode node).isBlank = node.isBlank := by
  rw [settledNode]
  split <;> simp

theorem settledNode_settledNode (node : Node) :
    m.settledNode (m.settledNode node) = m.settledNode node := by
  rw [settledNode, settledNode]
  split
  · exact node.collapse_collapse
  · rfl

/-- The children of an element as they stand in a document that is written. -/
def settledChildren (children : List Node) : List Node :=
  if m.collapses then collapsedChildren children else children

theorem settled_element (tag : Tag) (children : List Node) :
    m.settled ⟨tag, children⟩ = ⟨tag, m.settledChildren children⟩ := by
  rw [settled, settledChildren]
  split
  · exact Element.collapse_eq _
  · rfl

theorem settledChildren_of_no_leaf {children : List Node} (h : collapsedLeaf? children = none) :
    m.settledChildren children = children.map m.settledNode := by
  have hnode : m.settledNode = if m.collapses then Node.collapse else id := by
    funext node
    rw [settledNode]
    split <;> rfl
  rw [hnode, settledChildren]
  split
  · rw [collapsedChildren, h]
    rfl
  · simp

theorem settled_of_no_leaf {tag : Tag} {children : List Node}
    (h : collapsedLeaf? children = none) :
    m.settled ⟨tag, children⟩ = ⟨tag, children.map m.settledNode⟩ := by
  rw [settled_element, settledChildren_of_no_leaf m h]

theorem settledDocument_of_root {d : Document} {root : Element} (h : d.root? = some root) :
    m.settledDocument d = d.withRoot (m.settled root) := by
  rw [settledDocument, h]
  rfl

@[simp] theorem encoding_settledDocument (d : Document) :
    (m.settledDocument d).encoding = d.encoding := by
  rw [settledDocument]
  cases d.root? <;> rfl

theorem settled_eq : m.settled = if m.collapses then Element.collapse else id := by
  funext e
  rw [settled]
  split <;> rfl

theorem elements_settled (e : Element) :
    (m.settled e).elements = e.elements.map m.settled := by
  rw [settled_eq]
  split
  · exact Element.elements_collapse e
  · simp

theorem at?_settled (position : Position) (e : Element) :
    (m.settled e).at? position = (e.at? position).map m.settled := by
  rw [settled_eq]
  split
  · exact Element.at?_collapse position e
  · simp

theorem descend_settled (e : Element) (path : List String) :
    (m.settled e).descend path = (e.descend path).map m.settled := by
  rw [settled_eq]
  split
  · exact Element.descend_collapse e path
  · simp

theorem root?_settledDocument (d : Document) :
    (m.settledDocument d).root? = d.root?.map m.settled := by
  cases hroot : d.root? with
  | none =>
    rw [settledDocument, hroot]
    exact hroot
  | some root =>
    rw [settledDocument_of_root m hroot, Document.root?_withRoot _ _ (by simp [hroot]),
      Option.map_some]

theorem at?_settledDocument (d : Document) (position : Position) :
    (m.settledDocument d).at? position = (d.at? position).map m.settled := by
  rw [Document.at?, root?_settledDocument, Document.at?]
  cases d.root? with
  | none => rfl
  | some root => exact m.at?_settled position root

/-- The sections of a document that is written are those of the document, settled. -/
theorem sectionAt?_settledDocument (d : Document) (path : List String) :
    (m.settledDocument d).sectionAt? path = (d.sectionAt? path).map m.settled := by
  rw [Document.sectionAt?, root?_settledDocument, Document.sectionAt?]
  cases d.root? with
  | none => rfl
  | some root =>
    simp only [Option.map_some, Option.bind_some]
    rw [descend_settled, pathBelow_congr (m.name_settled root)]

/-- The sections of a document that is written have the entries of the document, settled. -/
theorem entriesAt_settledDocument (d : Document) (path : List String) :
    (m.settledDocument d).entriesAt path = (d.entriesAt path).map m.settled := by
  rw [Document.entriesAt, sectionAt?_settledDocument, Document.entriesAt]
  cases d.sectionAt? path with
  | none => rfl
  | some e => simp [elements_settled]

variable {m}

/-- What is written is the document with its leaves settled. -/
theorem gives_write {new d : Document} {p : Path} {w w' : World}
    (h : Gives (m.write new p) w d w') :
    d = m.settledDocument new ∧
      ∃ w₁ w₂, w₁.tree = w.tree ∧ Gives (d.save p m.style) w₁ () w₂ ∧ w'.tree = w₂.tree := by
  rw [write] at h
  cases hc : m.collapses with
  | true =>
    simp only [hc, if_true, gives_bind_iff, gives_pure_iff, gives_record_iff] at h
    obtain ⟨⟨d₁, count⟩, w₁, hgives, -, w₂, hw₂, d₂, w₃, ⟨rfl, rfl⟩, ⟨⟩, w₄, hsave, -, w₅, hw₅, rfl,
      rfl⟩ := h
    obtain ⟨hcollapse, rfl⟩ := gives_sections_iff.mp hgives
    refine ⟨?_, w₂, w₄, by rw [hw₂], gives_store_iff.mp hsave, by rw [hw₅]⟩
    rw [Document.collapse] at hcollapse
    cases hroot : new.root? with
    | none =>
      rw [hroot] at hcollapse
      cases hcollapse
    | some root =>
      rw [hroot] at hcollapse
      cases hcollapse
      rw [settledDocument_of_root m hroot, settled, hc, if_pos rfl]
  | false =>
    simp only [hc, Bool.false_eq_true, if_false, gives_bind_iff, gives_pure_iff,
      gives_record_iff] at h
    obtain ⟨d₁, w₁, ⟨rfl, rfl⟩, ⟨⟩, w₂, hsave, -, w₃, hw₃, rfl, rfl⟩ := h
    refine ⟨?_, w, w₂, rfl, gives_store_iff.mp hsave, by rw [hw₃]⟩
    rw [settledDocument]
    cases hroot : new.root? with
    | none => rfl
    | some root =>
      have hsettled : m.settled root = root := by simp [settled, hc]
      rw [Option.map_some, Option.getD_some, hsettled, Document.withRoot_self hroot]

/-- What can be saved once it is settled can be written. -/
theorem exists_write {new : Document} {root : Element} (hroot : new.root? = some root) {p : Path}
    {w : World}
    (hsave : ∀ w₁ : World, w₁.tree = w.tree →
      ∃ w₂, Gives ((m.settledDocument new).save p m.style) w₁ () w₂) :
    ∃ w', Gives (m.write new p) w (m.settledDocument new) w' := by
  rw [write]
  cases hc : m.collapses with
  | true =>
    have hcollapse : new.collapse = .ok (m.settledDocument new, root.wrappedLeaves) := by
      rw [Document.collapse, hroot, settledDocument_of_root m hroot, settled, hc, if_pos rfl]
    obtain ⟨w₂, hsave⟩ := hsave { w with log := w.log ++ collapsedRecords root.wrappedLeaves } rfl
    simp only [if_true, gives_bind_iff, gives_pure_iff, gives_record_iff]
    exact ⟨_, (_, _), _, gives_sections_iff.mpr ⟨hcollapse, rfl⟩, (), _, rfl, _, _, ⟨rfl, rfl⟩, (), _,
      gives_store_iff.mpr hsave, (), _, rfl, rfl, rfl⟩
  | false =>
    have hsame : m.settledDocument new = new := by
      have hsettled : m.settled root = root := by simp [settled, hc]
      rw [settledDocument_of_root m hroot, hsettled, Document.withRoot_self hroot]
    obtain ⟨w₂, hsave⟩ := hsave w rfl
    rw [hsame] at hsave ⊢
    simp only [Bool.false_eq_true, if_false, gives_bind_iff, gives_pure_iff, gives_record_iff]
    exact ⟨_, _, _, ⟨rfl, rfl⟩, (), _, gives_store_iff.mpr hsave, (), _, rfl, rfl, rfl⟩

theorem filter_map_settledNode (nodes : List Node) :
    (nodes.map m.settledNode).filter (!·.isBlank) = (nodes.filter (!·.isBlank)).map m.settledNode := by
  rw [List.filter_map]
  congr 2
  funext node
  simp

/-- Nodes that are the same but for blank text still are when their leaves are settled. -/
theorem bareNodes_map_settledNode {a b : List Node}
    (h : a.filter (!·.isBlank) = b.filter (!·.isBlank)) :
    bareNodes (a.map m.settledNode) = bareNodes (b.map m.settledNode) := by
  rw [bareNodes_eq, bareNodes_eq, filter_map_settledNode, filter_map_settledNode, h]

/-- Children that are the same but for blank text make the whole tree the same but for blank text. -/
theorem bare_settled_setAt {e x : Element} {position : Position} {a b : List Node}
    (h : e.at? position = some x)
    (ha : ∀ node ∈ a, node.isText = true → node.isBlank = true)
    (hb : ∀ node ∈ b, node.isText = true → node.isBlank = true)
    (hab : bareNodes (a.map m.settledNode) = bareNodes (b.map m.settledNode)) :
    (m.settled (e.setAt position a)).toNode.bare = (m.settled (e.setAt position b)).toNode.bare := by
  induction position generalizing e with
  | nil =>
    have hset : ∀ nodes, e.setAt [] nodes = ⟨e.tag, nodes⟩ := fun _ => rfl
    rw [hset, hset, settled_of_no_leaf m (collapsedLeaf?_of_blank ha),
      settled_of_no_leaf m (collapsedLeaf?_of_blank hb), Element.toNode, Element.toNode, Node.bare,
      Node.bare, hab]
  | cons rank rest ih =>
    obtain ⟨front, c, back, he, hrank, hc⟩ := Element.at?_cons h
    have hset : ∀ nodes, m.settled (e.setAt (rank :: rest) nodes) =
        ⟨e.tag, front.map m.settledNode ++ (m.settled (c.setAt rest nodes)).toNode ::
          back.map m.settledNode⟩ := by
      intro nodes
      rw [he, Element.setAt_cons hrank, settled_of_no_leaf m (collapsedLeaf?_append _ _ _),
        List.map_append, List.map_cons, ← toNode_settled]
    have hbare : ∀ nodes, (m.settled (e.setAt (rank :: rest) nodes)).toNode.bare =
        .element e.tag (bareNodes (front.map m.settledNode) ++
          (m.settled (c.setAt rest nodes)).toNode.bare :: bareNodes (back.map m.settledNode)) := by
      intro nodes
      rw [hset]
      exact congrArg (Node.element e.tag) (bareNodes_append _ _)
    rw [hbare, hbare, ih hc]

end Maintainer

theorem Maintainer.ordinary_settled (m : Maintainer) {e : Element} (h : e.toNode.ordinary) :
    (m.settled e).toNode.ordinary := by
  rw [toNode_settled, settledNode]
  split
  · exact shape_ordinary.node_collapse e.toNode h
  · exact h

/-- A document stays ordinary when its leaves are put on one line. -/
theorem Document.IsOrdinary.settled {d : Document} {contents : Xml.Contents} (h : d.IsOrdinary contents)
    (m : Maintainer) : (m.settledDocument d).IsOrdinary contents := by
  obtain ⟨root, hroot⟩ := h.exists_root
  rw [m.settledDocument_of_root hroot]
  exact h.withRoot hroot (m.ordinary_settled (h.root hroot).1) (m.name_settled root)

/-- Documents with children that are the same but for blank text are the same but for blank text. -/
theorem Maintainer.bareNodes_settled_setChildren {m : Maintainer} {d : Document} {position : Position}
    {owner : Element} (howner : d.at? position = some owner) {a b : List Node}
    (ha : ∀ node ∈ a, node.isText = true → node.isBlank = true)
    (hb : ∀ node ∈ b, node.isText = true → node.isBlank = true)
    (hab : bareNodes (a.map m.settledNode) = bareNodes (b.map m.settledNode)) :
    bareNodes (m.settledDocument (d.setChildren position a)).nodes =
      bareNodes (m.settledDocument (d.setChildren position b)).nodes := by
  obtain ⟨root, hroot, hat⟩ := Document.at?_eq_some howner
  have hset : ∀ nodes, m.settledDocument (d.setChildren position nodes) =
      d.withRoot (m.settled (root.setAt position nodes)) := by
    intro nodes
    rw [Document.setChildren_of_root hroot, m.settledDocument_of_root
      (Document.root?_withRoot _ _ (by simp [hroot])), Document.withRoot_withRoot]
  rw [hset, hset]
  exact bareNodes_setFirstElement (bare_settled_setAt hat ha hb hab) d.nodes

end Manifest
