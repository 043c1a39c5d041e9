/-!
Markup as it is written: elements with qualified names and a flat list of attributes, in which
declarations of namespaces come first.

`render` writes markup out. An element none of whose children is text, inside elements of the same
kind, has each child on a line of its own, two spaces deeper than itself; any other element is
written without adding anything to its text.
-/

set_option autoImplicit false

namespace Manifest.Xml

/-- A node with its names as they are written. -/
inductive Markup where
  | element (name : String) (attributes : List (String × String)) (children : List Markup)
  | text (value : String)
  | comment (value : String)
  | instruction (target value : String)
  deriving Repr, Inhabited

namespace Markup

/-- Whether the node is text. -/
def isText : Markup → Bool
  | .text _ => true
  | _ => false

/-- A character of text as it is written. -/
def escapeTextChar (c : Char) : List Char :=
  if c == '<' then "&lt;".toList
  else if c == '>' then "&gt;".toList
  else if c == '&' then "&amp;".toList
  else if c == '\r' then "&#13;".toList
  else [c]

/-- A character of an attribute value as it is written. -/
def escapeValueChar (c : Char) : List Char :=
  if c == '"' then "&quot;".toList
  else if c == '\n' then "&#10;".toList
  else if c == '\t' then "&#9;".toList
  else escapeTextChar c

/-- Text as it is written. -/
def escapeText (s : String) : List Char :=
  s.toList.flatMap escapeTextChar

/-- An attribute value as it is written. -/
def escapeValue (s : String) : List Char :=
  s.toList.flatMap escapeValueChar

/-- An attribute as it is written in a tag, with the space before it. -/
def renderAttribute (a : String × String) : List Char :=
  ' ' :: (a.1.toList ++ '=' :: '"' :: (escapeValue a.2 ++ ['"']))

/-- A comment as it is written. -/
def renderComment (value : String) : List Char :=
  "<!--".toList ++ value.toList ++ "-->".toList

/-- An instruction as it is written. -/
def renderInstruction (target value : String) : List Char :=
  "<?".toList ++ target.toList ++ ' ' :: value.toList ++ "?>".toList

/-- The deepest level that still moves a line to the right. -/
def deepestIndent : Nat := 30

/-- The spaces in front of a line at a level. -/
def margin (level : Nat) : List Char :=
  List.replicate (2 * min level deepestIndent) ' '

mutual

/-- A node as it is written: on lines at a level, or as part of text. -/
def renderAt (level : Option Nat) : Markup → List Char
  | .text value => escapeText value
  | .comment value => renderComment value
  | .instruction target value => renderInstruction target value
  | .element name attributes children =>
    let start := '<' :: (name.toList ++ attributes.flatMap renderAttribute)
    if children.isEmpty then start ++ ['/', '>']
    else
      let finish := '<' :: '/' :: (name.toList ++ ['>'])
      match if children.any isText then none else level with
      | none => start ++ '>' :: (renderInline children ++ finish)
      | some level =>
        start ++ '>' :: '\n' :: (renderLines (level + 1) children ++ margin level ++ finish)

/-- Nodes one after another. -/
def renderInline : List Markup → List Char
  | [] => []
  | node :: rest => node.renderAt none ++ renderInline rest

/-- Nodes on lines of their own. -/
def renderLines (level : Nat) : List Markup → List Char
  | [] => []
  | node :: rest => margin level ++ node.renderAt (some level) ++ '\n' :: renderLines level rest

end

/-- The root or a node beside it as it is written. -/
def render (m : Markup) : List Char :=
  m.renderAt (some 0)

end Markup

end Manifest.Xml
