import Manifest.Node
import Manifest.Text.Quoted

/-!
Nodes and sections as they are named in messages.
-/

set_option autoImplicit false

namespace Manifest

open Text (quoted)

/-- A short form of an element: its name and how many children it has. -/
def Element.display (e : Element) : String :=
  "Element(name=" ++ quoted e.name ++ ", children=" ++ toString e.children.length ++ ")"

/-- A short form of a node. -/
def Node.display : Node → String
  | .element tag children => Element.display ⟨tag, children⟩
  | .text value => "Text(value=" ++ quoted value ++ ")"
  | .comment value => "Comment(value=" ++ quoted value ++ ")"
  | .instruction target value =>
    "ProcessingInstruction(target=" ++ quoted target ++ ", value=" ++ quoted value ++ ")"

/-- A short form of the section that an element owns. -/
def Element.displaySection (e : Element) : String :=
  "Section(<" ++ e.name ++ ">, entries=" ++ toString e.elements.length ++ ")"

/-- Why a node has no position among the children of an element. -/
def Element.notAChild (e : Element) (node : Node) : String :=
  "<" ++ node.display ++ "> is not a child of <" ++ e.name ++ ">"

end Manifest
