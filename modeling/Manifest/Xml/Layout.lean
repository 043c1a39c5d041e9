import Manifest.Text.Blank
import Manifest.Xml.Markup

/-!
Indentation of markup by a given string a level.

In an element with children other than text, white space before the first child and after each
child is replaced by a line end and the indentation of the level; other text stays. An element with
nothing but text in it keeps its text.
-/

set_option autoImplicit false

namespace Manifest.Xml.Markup

/-- Whether the node is text of white space only. -/
def isBlank : Markup → Bool
  | .text value => Text.isBlankText value
  | _ => false

/-- Whether an element has children other than text. -/
def hasNodes (children : List Markup) : Bool :=
  children.any (!·.isText)

/-- A line end and the indentation of a level. -/
def lineBreak (unit : String) (level : Nat) : Markup :=
  .text (String.ofList ('\n' :: (List.replicate level unit.toList).flatten))

mutual

/-- A node with its children indented, at the level of the children. -/
def indent (unit : String) (level : Nat) : Markup → Markup
  | .element name attributes children =>
    if hasNodes children then
      .element name attributes (indentNodes unit level true children)
    else .element name attributes children
  | node => node

/--
The children of an element, indented. `gap` tells that the white space before the next node has not
been settled yet; after the last node stands the break of the level above.
-/
def indentNodes (unit : String) (level : Nat) (gap : Bool) : List Markup → List Markup
  | [] => if gap then [lineBreak unit (level - 1)] else []
  | .text value :: rest =>
    let atEnd := !hasNodes rest
    if Text.isBlankText value then
      (if gap then [lineBreak unit (if atEnd then level - 1 else level)] else []) ++
        indentNodes unit level false rest
    else .text value :: indentNodes unit level false rest
  | node :: rest =>
    (if gap then [lineBreak unit level] else []) ++
      node.indent unit (level + 1) :: indentNodes unit level true rest

end

end Manifest.Xml.Markup
