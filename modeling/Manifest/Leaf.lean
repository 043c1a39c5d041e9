import Manifest.Document.Read
import Manifest.Document.Write
import Manifest.Section

/-!
Leaves on one line.

A leaf is wrapped if its only child is a text of one line with white space around it. Collapsing
takes that white space away; elements with comments, several children or text of several lines are
left alone.
-/

set_option autoImplicit false

namespace Manifest

/-- Whether a text has more than one line. -/
def hasLineBreak (s : String) : Bool :=
  s.toList.any fun c => c == '\n' || c == '\r'

/-- The text of a wrapped leaf without the white space around it, if the text is that of one. -/
def unwrapped? (value : String) : Option String :=
  let stripped := Text.strip value
  if stripped.isEmpty || hasLineBreak stripped || stripped == value then none else some stripped

/-- The children of a wrapped leaf after it is collapsed, if they are those of one. -/
def collapsedLeaf? : List Node → Option (List Node)
  | [.text value] => (unwrapped? value).map fun stripped => [.text stripped]
  | _ => none

mutual

/-- A node with all wrapped leaves in it collapsed. -/
def Node.collapse : Node → Node
  | .element tag children =>
    match collapsedLeaf? children with
    | some leaf => .element tag leaf
    | none => .element tag (collapseNodes children)
  | node => node

/-- Nodes with all wrapped leaves in them collapsed. -/
def collapseNodes : List Node → List Node
  | [] => []
  | node :: rest => node.collapse :: collapseNodes rest

end

mutual

/-- How many wrapped leaves there are in a node. -/
def Node.wrappedLeaves : Node → Nat
  | .element _ children =>
    if (collapsedLeaf? children).isSome then 1 else wrappedLeavesOf children
  | _ => 0

/-- How many wrapped leaves there are in some nodes. -/
def wrappedLeavesOf : List Node → Nat
  | [] => 0
  | node :: rest => node.wrappedLeaves + wrappedLeavesOf rest

end

/-- The record of a number of leaves that were collapsed; there is none if there were no leaves. -/
def collapsedRecords (count : Nat) : List Record :=
  if count == 0 then []
  else [.debug ("Collapsed " ++ toString count ++ " wrapped leaf element(s)")]

/-- An element with all wrapped leaves in it collapsed. -/
def Element.collapse (e : Element) : Element :=
  (e.toNode.collapse.element?).getD e

/-- How many wrapped leaves there are in an element. -/
def Element.wrappedLeaves (e : Element) : Nat :=
  e.toNode.wrappedLeaves

/-- A document with all wrapped leaves collapsed, and how many there were. -/
def Document.collapse (d : Document) : Except SectionError (Document × Nat) :=
  match d.root? with
  | none => .error .noRoot
  | some root => .ok (d.withRoot root.collapse, root.wrappedLeaves)

/-- Why a text could not be tidied. -/
inductive TidyError where
  | read (e : ReadError)
  | write (e : WriteError)
  deriving Repr, DecidableEq

/-- The source given to a text that is to be tidied. -/
def tidySource : String := "<normalize>"

/-- Whether a text begins like a declaration, white space apart. -/
def opensWithDeclaration (text : String) : Bool :=
  (Xml.skipWord "<?xml".toList (text.toList.dropWhile Text.isBlank)).isSome

/--
Text with its wrapped leaves collapsed and its lines indented. There is a declaration in front if
there was one before.
-/
def tidyText (text : String) (indent : Indent := .unit "  ") : Except TidyError String :=
  match readText text (some tidySource) with
  | .error e => .error (.read e)
  | .ok d =>
    let tidied := (d.root?.map fun root => d.withRoot root.collapse).getD d
    match tidied.render { indent := indent, declaration := opensWithDeclaration text } with
    | .error e => .error (.write e)
    | .ok text => .ok text

end Manifest
