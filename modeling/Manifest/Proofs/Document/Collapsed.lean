import Manifest.Proofs.Document.Changed
import Manifest.Proofs.Marks

/-! What collapsing leaves does to a tree. Only the texts of wrapped leaves change, and as many are changed as
there are. Then there is none left. Nothing that looks for sections or at what an entry is known by tells the tree
from the one before. -/

set_option autoImplicit false

namespace Manifest

/-! Trees that differ by wrapped leaves. -/

/-- Whether the only child of an element is a text of one line with white space around it. -/
def Element.isWrappedLeaf (e : Element) : Bool :=
  match e.children with
  | [.text value] => decide (IsWrapped value)
  | _ => false

mutual

/-- The elements in a node, which is the first of them if it is an element. -/
def Node.within : Node → List Element
  | .element tag children => ⟨tag, children⟩ :: elementsWithin children
  | _ => []

/-- The elements in some nodes. -/
def elementsWithin : List Node → List Element
  | [] => []
  | node :: rest => node.within ++ elementsWithin rest

end

/-- That a tree differs from another one by its wrapped leaves only: each has its stripped text. -/
inductive Tidied : Node → Node → Prop where
  | leaf {tag : Tag} {value : String} : IsWrapped value →
      Tidied (.element tag [.text value]) (.element tag [.text (Text.strip value)])
  | inner {tag : Tag} {children children' : List Node} : (⟨tag, children⟩ : Element).isWrappedLeaf = false →
      List.Forall₂ Tidied children children' → Tidied (.element tag children) (.element tag children')
  | other {node : Node} : node.isElement = false → Tidied node node

theorem isWrappedLeaf_text (tag : Tag) {value : String} (h : IsWrapped value) :
    (⟨tag, [.text value]⟩ : Element).isWrappedLeaf = true :=
  decide_eq_true h

theorem isSome_collapsedLeaf? (tag : Tag) (children : List Node) :
    (collapsedLeaf? children).isSome = (⟨tag, children⟩ : Element).isWrappedLeaf := by
  cases children with
  | nil => rfl
  | cons node rest =>
    cases node with
    | text value =>
      cases rest with
      | nil =>
        rw [collapsedLeaf?, Option.isSome_map, unwrapped?_eq, Element.isWrappedLeaf]
        by_cases h : IsWrapped value <;> simp [h]
      | cons next rest => rfl
    | _ => rfl

mutual

theorem Node.tidied_collapse (node : Node) : Tidied node node.collapse := by
  cases node with
  | element tag children =>
    rw [collapse_element]
    rcases collapsedChildren_cases children with ⟨hnone, hsame⟩ | ⟨value, hwrapped, rfl, hleaf⟩
    · rw [hsame]
      exact .inner (by rw [← isSome_collapsedLeaf?, hnone]; rfl) (tidied_map_collapse children)
    · rw [hleaf]
      exact .leaf hwrapped
  | _ => exact .other rfl

theorem tidied_map_collapse (nodes : List Node) :
    List.Forall₂ Tidied nodes (nodes.map Node.collapse) := by
  cases nodes with
  | nil => exact .nil
  | cons node rest => exact .cons node.tidied_collapse (tidied_map_collapse rest)

end

mutual

/-- The leaves that are counted are the wrapped ones. -/
theorem Node.wrappedLeaves_eq (node : Node) :
    node.wrappedLeaves = node.within.countP Element.isWrappedLeaf := by
  cases node with
  | element tag children =>
    rw [Node.wrappedLeaves, Node.within, List.countP_cons, ← isSome_collapsedLeaf?]
    rcases collapsedChildren_cases children with ⟨hnone, -⟩ | ⟨value, hwrapped, rfl, -⟩
    · rw [hnone, wrappedLeavesOf_eq children]
      rfl
    · rw [isSome_collapsedLeaf? tag, isWrappedLeaf_text tag hwrapped]
      rfl
  | _ => rfl

theorem wrappedLeavesOf_eq (nodes : List Node) :
    wrappedLeavesOf nodes = (elementsWithin nodes).countP Element.isWrappedLeaf := by
  cases nodes with
  | nil => rfl
  | cons node rest =>
    rw [wrappedLeavesOf, elementsWithin, List.countP_append, Node.wrappedLeaves_eq node,
      wrappedLeavesOf_eq rest]

end

mutual

/-- No wrapped leaf is left. -/
theorem Node.wrappedLeaves_collapse (node : Node) : node.collapse.wrappedLeaves = 0 := by
  cases node with
  | element tag children =>
    rw [collapse_element, Node.wrappedLeaves]
    rcases collapsedChildren_cases children with ⟨hnone, hsame⟩ | ⟨value, -, rfl, hleaf⟩
    · rw [hsame, collapsedLeaf?_map_collapse, hnone]
      exact wrappedLeavesOf_map_collapse children
    · rw [hleaf, collapsedLeaf?, unwrapped?_strip]
      rfl
  | _ => rfl

theorem wrappedLeavesOf_map_collapse (nodes : List Node) :
    wrappedLeavesOf (nodes.map Node.collapse) = 0 := by
  cases nodes with
  | nil => rfl
  | cons node rest =>
    rw [List.map_cons, wrappedLeavesOf, Node.wrappedLeaves_collapse node, wrappedLeavesOf_map_collapse rest]

end

/-! What is seen of a tree. -/

/-- That nothing which looks for sections, or at what an entry is known by, tells two elements apart. -/
structure Element.Alike (e e' : Element) : Prop where
  name : e'.name = e.name
  locate : ∀ path, e'.locate path = e.locate path
  childText? : ∀ name, e'.childText? name = e.childText? name
  same_left : ∀ (identity : Identity) (other : Element), identity.same e' other = identity.same e other
  same_right : ∀ (identity : Identity) (other : Element), identity.same other e' = identity.same other e
  holds : ∀ anchor : Anchor, anchor.holds e' = anchor.holds e

theorem Element.alike_collapse (e : Element) : e.Alike e.collapse where
  name := name_collapse e
  locate := locate_collapse e
  childText? := Identity.childText?_collapse e
  same_left identity other := Identity.same_of_marks (identity.marks_collapse e) other
  same_right identity other := Identity.same_of_marks_right (identity.marks_collapse e) other
  holds anchor := Identity.holds_of_marks (Identity.dependency.marks_collapse e) anchor

/-! Elements and documents. -/

/--
That an element is what another one becomes when its wrapped leaves are collapsed, and that there were so many:
they are counted, and each has its stripped text; collapsing again finds none and changes nothing; and what is at
any position looks as it did.
-/
structure Element.CollapsesTo (e e' : Element) (count : Nat) : Prop where
  count_eq : count = e.toNode.within.countP Element.isWrappedLeaf
  tidied : Tidied e.toNode e'.toNode
  none_left : e'.wrappedLeaves = 0
  again : e'.collapse = e'
  alike : ∀ position, Option.Rel Element.Alike (e.at? position) (e'.at? position)

theorem Element.toNode_collapse (e : Element) : e.collapse.toNode = e.toNode.collapse := by
  rw [collapse_eq, toNode, toNode, collapse_element]

theorem Element.collapsesTo_collapse (e : Element) : e.CollapsesTo e.collapse e.wrappedLeaves where
  count_eq := e.toNode.wrappedLeaves_eq
  tidied := by
    rw [toNode_collapse]
    exact e.toNode.tidied_collapse
  none_left := by
    rw [wrappedLeaves, toNode_collapse]
    exact e.toNode.wrappedLeaves_collapse
  again := by
    have hnode := e.toNode.collapse_collapse
    rw [← toNode_collapse, ← toNode_collapse] at hnode
    exact Option.some.inj (congrArg Node.element? hnode)
  alike position := by
    rw [at?_collapse]
    cases e.at? position with
    | none => exact .none
    | some x => exact .some x.alike_collapse

/-- Sections of a document are where they were before leaves are collapsed. -/
theorem Document.find_withRoot_collapse {d : Document} {root : Element} (hroot : d.root? = some root)
    (start : Option Position) (path : List String) :
    (d.withRoot root.collapse).find start path = d.find start path := by
  have hroot' := root?_withRoot d root.collapse (by rw [hroot]; rfl)
  have hlocate : (d.withRoot root.collapse).locate start path = d.locate start path := by
    rw [locate, locate, hroot, hroot']
    cases start with
    | none =>
      dsimp only
      rw [pathBelow_congr root.name_collapse, Element.locate_collapse]
    | some start =>
      dsimp only
      rw [Element.at?_collapse]
      cases root.at? start with
      | none => rfl
      | some x => rw [Option.map_some, Option.bind_some, Option.bind_some, Element.locate_collapse]
  rw [find, find, hlocate]

/--
Collapsing leaves counts the wrapped ones and gives them their stripped text. Nothing else changes, there is
nothing to collapse afterwards, and sections, fields and the verdicts of all identities and anchors are what they
were; for an element by itself as for the root of a document, which is otherwise left alone.
-/
theorem collapse_collapsesTo :
    (∀ e : Element, e.CollapsesTo e.collapse e.wrappedLeaves) ∧
      ∀ (d : Document) (root : Element), d.root? = some root →
        d.collapse = .ok (d.withRoot root.collapse, root.wrappedLeaves) ∧
          (d.withRoot root.collapse).collapse = .ok (d.withRoot root.collapse, 0) ∧
          ∀ start path, (d.withRoot root.collapse).find start path = d.find start path := by
  refine ⟨Element.collapsesTo_collapse, fun d root hroot => ⟨by rw [Document.collapse, hroot], ?_,
    Document.find_withRoot_collapse hroot⟩⟩
  have hto := root.collapsesTo_collapse
  have hroot' := Document.root?_withRoot d root.collapse (by rw [hroot]; rfl)
  rw [Document.collapse, hroot']
  dsimp only
  rw [hto.again, hto.none_left, Document.withRoot_withRoot]

/-- A profile with an identifier, with a text that is cut by a comment and with one of two lines. -/
def spacedProfile (id : String) : Element :=
  .ofName "profile" [(Element.ofName "id" [.text id]).toNode,
    (Element.ofName "name" [.text " x ", .comment "c"]).toNode,
    (Element.ofName "note" [.text " two\nlines "]).toNode]

theorem collapse_collapsesTo_spacedProfile :
    ({ nodes := [(spacedProfile "\n a ").toNode] } : Document).root? = some (spacedProfile "\n a ") ∧
      ({ nodes := [(spacedProfile "\n a ").toNode] } : Document).collapse =
        .ok ({ nodes := [(spacedProfile "a").toNode] }, 1) ∧
      ({ nodes := [(spacedProfile "a").toNode] } : Document).collapse =
        .ok ({ nodes := [(spacedProfile "a").toNode] }, 0) ∧
      Identity.profile.same (spacedProfile "a") (spacedProfile "\n a ") = true := by
  have hcollapse : (spacedProfile "\n a ").collapse = spacedProfile "a" := rfl
  obtain ⟨hresult, hagain, -⟩ :=
    collapse_collapsesTo.2 { nodes := [(spacedProfile "\n a ").toNode] } (spacedProfile "\n a ") rfl
  rw [hcollapse] at hresult hagain
  have hself : Identity.profile.same (spacedProfile "\n a ") (spacedProfile "\n a ") = true := by decide
  have halike := (collapse_collapsesTo.1 (spacedProfile "\n a ")).alike []
  rw [hcollapse] at halike
  cases halike with
  | some halike => exact ⟨rfl, hresult, hagain, (halike.same_left .profile _).trans hself⟩

end Manifest
