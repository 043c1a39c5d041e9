import Manifest.Node

/-!
When two trees have the same shape and content.

White space between nodes, namespaces of elements and the order of attributes do not count; names,
attribute values, other text, comments and instructions do. A document is the same as any
re-indented copy of itself.
-/

set_option autoImplicit false

namespace Manifest

/-- Whether two attribute lists hold the same values under the same keys. -/
def sameAttributes (a b : List (String × String)) : Bool :=
  a.length == b.length && a.all fun (key, value) => b.lookup key == some value

mutual

/-- Whether two nodes have the same shape and content. -/
def Node.same : Node → Node → Bool
  | .element tag children, .element tag' children' =>
    tag.name == tag'.name && sameAttributes tag.attributes tag'.attributes &&
      sameNodes children children'
  | .text value, .text value' => value == value'
  | .comment value, .comment value' => value == value'
  | .instruction target value, .instruction target' value' =>
    target == target' && Text.strip value == Text.strip value'
  | _, _ => false

/-- Whether two sequences of nodes are the same one by one, blank text left out. -/
def sameNodes : List Node → List Node → Bool
  | [], ys => ys.all Node.isBlank
  | x :: xs, ys =>
    if x.isBlank then sameNodes xs ys
    else match ys.dropWhile Node.isBlank with
      | [] => false
      | y :: rest => x.same y && sameNodes xs rest

end

/-- Whether two documents have the same nodes, blank text left out. -/
def Document.same (a b : Document) : Bool :=
  sameNodes a.nodes b.nodes

/-- What can be compared: a document, or a node by itself. -/
inductive Comparand where
  | document (d : Document)
  | node (n : Node)
  deriving Repr, Inhabited

/-- Whether two documents, or two nodes, have the same shape and content; never one of each. -/
def Comparand.same : Comparand → Comparand → Bool
  | .document a, .document b => a.same b
  | .node a, .node b => a.same b
  | _, _ => false

end Manifest
