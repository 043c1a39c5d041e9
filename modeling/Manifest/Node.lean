import Manifest.Text.Blank

/-!
The tree of a manifest document.

A node is an element with its start tag and its children, a piece of text, a comment or a
processing instruction. Children stand in document order, white space included, so that a subtree
nobody touches is written back as it was read.
-/

set_option autoImplicit false

namespace Manifest

/-- A namespace declaration: a prefix, or none for the default namespace, and what it stands for. -/
structure Binding where
  pfx : Option String
  uri : String
  deriving Repr, DecidableEq, Inhabited

/--
What the start tag of an element says.

`uri` is the namespace of the element. An element without one takes its parent's when the document
is written; the empty namespace is the absence of any and is not taken from the parent. `bindings`
are the namespaces that the tag itself declares. The key of an attribute in a namespace is the URI
in braces followed by the local name.
-/
structure Tag where
  name : String
  uri : Option String := none
  bindings : List Binding := []
  attributes : List (String × String) := []
  deriving Repr, DecidableEq, Inhabited

/-- One node of a document tree. -/
inductive Node where
  /-- A start tag and the children up to its end tag. -/
  | element (tag : Tag) (children : List Node)
  /-- Character data. -/
  | text (value : String)
  /-- A comment, kept verbatim. -/
  | comment (value : String)
  /-- A processing instruction, kept verbatim. -/
  | instruction (target value : String)
  deriving Repr, Inhabited

/-- An element by itself: the only kind of node that has children. -/
structure Element where
  tag : Tag
  children : List Node := []
  deriving Repr, Inhabited

namespace Node

/-- The node as an element, if it is one. -/
def element? : Node → Option Element
  | .element tag children => some ⟨tag, children⟩
  | _ => none

/-- Whether the node is an element. -/
def isElement : Node → Bool
  | .element .. => true
  | _ => false

/-- Whether the node is text of white space only. -/
def isBlank : Node → Bool
  | .text value => Text.isBlankText value
  | _ => false

/-- The character data of a text node; other nodes have none of their own. -/
def textValue : Node → String
  | .text value => value
  | _ => ""

end Node

namespace Element

/-- The element as a node. -/
def toNode (e : Element) : Node :=
  .element e.tag e.children

@[simp] theorem element?_toNode (e : Element) : e.toNode.element? = some e := rfl

theorem toNode_of_element? {node : Node} {e : Element} (h : node.element? = some e) :
    e.toNode = node := by
  cases node with
  | element tag children =>
    cases h
    rfl
  | _ => simp [Node.element?] at h

/-- The local name. -/
def name (e : Element) : String :=
  e.tag.name

/-- An element that has only a name and children. -/
def ofName (name : String) (children : List Node := []) : Element :=
  ⟨{ name := name }, children⟩

end Element

/-- The elements among some nodes, in order. -/
def elementsOf (nodes : List Node) : List Element :=
  nodes.filterMap Node.element?

@[simp] theorem elementsOf_nil : elementsOf [] = [] := rfl

@[simp] theorem elementsOf_append (a b : List Node) :
    elementsOf (a ++ b) = elementsOf a ++ elementsOf b :=
  List.filterMap_append

@[simp] theorem elementsOf_element_cons (tag : Tag) (children rest : List Node) :
    elementsOf (.element tag children :: rest) = ⟨tag, children⟩ :: elementsOf rest := rfl

@[simp] theorem elementsOf_toNode_cons (e : Element) (rest : List Node) :
    elementsOf (e.toNode :: rest) = e :: elementsOf rest := rfl

@[simp] theorem elementsOf_text_cons (value : String) (rest : List Node) :
    elementsOf (.text value :: rest) = elementsOf rest := rfl

@[simp] theorem elementsOf_comment_cons (value : String) (rest : List Node) :
    elementsOf (.comment value :: rest) = elementsOf rest := rfl

@[simp] theorem elementsOf_instruction_cons (target value : String) (rest : List Node) :
    elementsOf (.instruction target value :: rest) = elementsOf rest := rfl

/--
The nodes before the first element that satisfies a condition, that element, and the nodes after it.
-/
def splitAtElement (p : Element → Bool) : List Node → Option (List Node × Element × List Node)
  | [] => none
  | node :: rest =>
    match node.element?.filter p with
    | some e => some ([], e, rest)
    | none => (splitAtElement p rest).map fun (before, e, after) => (node :: before, e, after)

/-- A split loses nothing and stops at the first element that satisfies the condition. -/
theorem splitAtElement_eq_some {p : Element → Bool} {nodes before after : List Node} {e : Element}
    (h : splitAtElement p nodes = some (before, e, after)) :
    nodes = before ++ e.toNode :: after ∧ p e = true ∧ ∀ x ∈ elementsOf before, p x = false := by
  induction nodes generalizing before with
  | nil => simp [splitAtElement] at h
  | cons node rest ih =>
    rw [splitAtElement] at h
    split at h
    · next x hx =>
      obtain ⟨hnode, hp⟩ := Option.filter_eq_some_iff.mp hx
      simp only [Option.some.injEq, Prod.mk.injEq] at h
      obtain ⟨rfl, rfl, rfl⟩ := h
      refine ⟨?_, hp, by simp⟩
      rw [← Element.toNode_of_element? hnode]
      rfl
    · next hx =>
      obtain ⟨⟨b, x, a⟩, hs, hb⟩ := Option.map_eq_some_iff.mp h
      simp only [Prod.mk.injEq] at hb
      obtain ⟨rfl, rfl, rfl⟩ := hb
      obtain ⟨hnodes, hp, hno⟩ := ih hs
      refine ⟨by rw [hnodes]; rfl, hp, ?_⟩
      intro y hy
      rw [elementsOf, List.filterMap_cons] at hy
      split at hy
      · exact hno y hy
      · next z hz =>
        rcases List.mem_cons.mp hy with rfl | hy
        · rw [hz] at hx
          simpa using hx
        · exact hno y hy

/-- The first element of a given name. -/
def childOf? (nodes : List Node) (name : String) : Option Element :=
  (elementsOf nodes).find? (·.name == name)

namespace Element

/-- The child elements, in order. -/
def elements (e : Element) : List Element :=
  elementsOf e.children

/-- The first child element of a given name. -/
def child? (e : Element) (name : String) : Option Element :=
  childOf? e.children name

/-- The text directly inside the element, without that of its child elements. -/
def text (e : Element) : String :=
  String.join (e.children.map Node.textValue)

/-- The stripped text of the first child of a given name, if there is any. -/
def childText? (e : Element) (name : String) : Option String :=
  (e.child? name).bind fun child =>
    let value := Text.strip child.text
    if value.isEmpty then none else some value

/-- The element with nothing but a text inside, or with nothing at all if the text is empty. -/
def withText (e : Element) (value : String) : Element :=
  { e with children := if value.isEmpty then [] else [.text value] }

end Element

/--
A document: the nodes at its top level, of which the first element is the root, the document type
declaration, and the name of the encoding in which it is stored.
-/
structure Document where
  nodes : List Node := []
  doctype : Option String := none
  encoding : String := "UTF-8"
  deriving Repr, Inhabited

namespace Document

/-- The root: the first element at the top level. -/
def root? (d : Document) : Option Element :=
  (elementsOf d.nodes).head?

/-- Replaces the first element among some nodes. -/
def setFirstElement (e : Element) : List Node → List Node
  | [] => []
  | .element _ _ :: rest => e.toNode :: rest
  | node :: rest => node :: setFirstElement e rest

/-- The document with another root. -/
def withRoot (d : Document) (e : Element) : Document :=
  { d with nodes := setFirstElement e d.nodes }

theorem elementsOf_setFirstElement (e : Element) (nodes : List Node) :
    elementsOf (setFirstElement e nodes) =
      match elementsOf nodes with
      | [] => []
      | _ :: rest => e :: rest := by
  induction nodes with
  | nil => rfl
  | cons node rest ih =>
    cases node <;>
      simp_all [setFirstElement, elementsOf, List.filterMap_cons, Node.element?, Element.toNode]

/-- A replaced root is the root. -/
theorem root?_withRoot (d : Document) (e : Element) (h : d.root?.isSome = true) :
    (d.withRoot e).root? = some e := by
  unfold root? at h
  simp only [root?, withRoot, elementsOf_setFirstElement]
  cases hn : elementsOf d.nodes with
  | nil => simp [hn] at h
  | cons a rest => rfl

end Document

end Manifest
