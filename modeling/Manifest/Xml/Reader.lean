import Manifest.Text.LineEnd
import Manifest.Xml.Prolog
import Manifest.Xml.Scope

/-!
Documents from their text: tags are matched, entities are replaced, names are resolved.

`readDocument` gives the document type and the top-level nodes of a text that is well-formed, and
nothing for any other text.
-/

set_option autoImplicit false

namespace Manifest.Xml

/-- Whether start and end tags match, inside open elements of given names. -/
def balanced : List (List Char) → List Token → Bool
  | names, [] => names.isEmpty
  | names, .startTag name _ closed :: rest => balanced (if closed then names else name :: names) rest
  | name :: names, .endTag name' :: rest => name == name' && balanced names rest
  | [], .endTag _ :: _ => false
  | names, _ :: rest => balanced names rest

/--
Character data with the entities in it replaced by what they stand for, given how to read the text
of an entity.
-/
def expandPieces (entity : List Char → Option (List Token)) : List Piece → Option (List Token)
  | [] => some []
  | .entity name :: rest => do
    let front ← entity name
    let back ← expandPieces entity rest
    return front ++ back
  | piece :: rest => (expandPieces entity rest).map (.data [piece] :: ·)

/-- Whether a piece is an entity. -/
def Piece.isEntity : Piece → Bool
  | .entity _ => true
  | _ => false

/-- Tokens with the entities in character data replaced, given how to read one. -/
def expandTokens (entity : List Char → Option (List Token)) : List Token → Option (List Token)
  | [] => some []
  | .data pieces :: rest => do
    let front ← if pieces.any Piece.isEntity then expandPieces entity pieces
      else some [.data pieces]
    let back ← expandTokens entity rest
    return front ++ back
  | token :: rest => (expandTokens entity rest).map (token :: ·)

/-- Whether entities stand inside elements only, given how many elements are open. -/
def entitiesInside : Nat → List Token → Bool
  | _, [] => true
  | depth, .startTag _ _ closed :: rest => entitiesInside (if closed then depth else depth + 1) rest
  | depth, .endTag _ :: rest => entitiesInside (depth - 1) rest
  | depth, .data pieces :: rest =>
    (0 < depth || !pieces.any Piece.isEntity) && entitiesInside depth rest
  | depth, _ :: rest => entitiesInside depth rest

/-- The tokens of an entity, with entities nested up to a depth. Their tags match. -/
def Declarations.entityTokens (d : Declarations) : Nat → List Char → Option (List Token)
  | 0, _ => none
  | depth + 1, name =>
    match d.entities.lookup name with
    | some (.internal text) => do
      let own ← tokens (d.attributeEntity maxEntityDepth) text
      let all ← expandTokens (d.entityTokens depth) own
      if balanced [] all then return all else none
    | _ => none

/-- The tokens of a document with the entities in it replaced; there are none beside the root. -/
def Declarations.expandDocument (d : Declarations) (ts : List Token) : Option (List Token) :=
  if entitiesInside 0 ts then expandTokens (d.entityTokens maxEntityDepth) ts else none

/-- An element whose end tag has not been read: its children so far, the last one first. -/
structure OpenElement where
  name : List Char
  tag : Tag
  scope : Scope
  children : List Node := []

/-- Adds a node to children in reverse order. Neighbouring texts become one. -/
def addNode (node : Node) (children : List Node) : List Node :=
  match node, children with
  | .text value, .text before :: rest => .text (before ++ value) :: rest
  | .text value, children => if value.isEmpty then children else .text value :: children
  | node, children => node :: children

/--
How far a document has been read: the open elements, the innermost first, the top-level nodes that
are complete, the last one first, and the last remark.
-/
structure Progress where
  stack : List OpenElement := []
  done : List Node := []
  last : Option Remark := none

/-- How deeply elements may be nested. -/
def maxDepth : Nat := 256

/-- Whether the root has been closed. -/
def Progress.hasRoot (p : Progress) : Bool :=
  p.done.any Node.isElement

/-- Adds a complete node where the document has been read to. -/
def Progress.add (p : Progress) (node : Node) : Progress :=
  match p.stack with
  | [] => { p with done := node :: p.done }
  | top :: rest => { p with stack := { top with children := addNode node top.children } :: rest }

/-- Notes remarks; the last of them stays. -/
def Progress.remark (p : Progress) (remarks : List Remark) : Progress :=
  { p with last := remarks.getLast?.or p.last }

/-- Closes the innermost element. -/
def Progress.close (p : Progress) : Option Progress :=
  match p.stack with
  | [] => none
  | top :: rest =>
    some ({ p with stack := rest }.add (.element top.tag top.children.reverse))

/-- The text that pieces write, if no entity is left among them. -/
def pieceText : List Piece → Option (List Char)
  | [] => some []
  | .literal c :: rest | .referred c :: rest => (pieceText rest).map (c :: ·)
  | .entity _ :: _ => none

/-- Whether pieces are white space that stands in the document itself. -/
def isPlainSpace (pieces : List Piece) : Bool :=
  pieces.all fun
    | .literal c => isSpace c
    | _ => false

/-- The remarks on the target of an instruction. -/
def targetRemarks (target : List Char) : List Remark :=
  let reserved := (target.take 3).map Char.toLower == ['x', 'm', 'l'] &&
    target != "xml-stylesheet".toList && target != "xml-model".toList
  (if reserved then [.warning] else []) ++ faultUnless (!target.contains ':')

/-- Reads one token. -/
def Progress.step (rules : List AttributeRule) (p : Progress) : Token → Option Progress
  | .startTag name attributes closed =>
    if (p.stack.isEmpty && p.hasRoot) || maxDepth ≤ p.stack.length ||
        !keysDistinct (attributes.map fun (name, _) => String.ofList name) then none
    else
      let resolved := resolveTag rules ((p.stack.head?.map (·.scope)).getD []) name attributes
      let opened := { p with stack := ⟨name, resolved.tag, resolved.scope, []⟩ :: p.stack }
      let opened := opened.remark resolved.remarks
      if closed then opened.close else some opened
  | .endTag name =>
    if (p.stack.head?.map (·.name)) == some name then p.close else none
  | .data pieces =>
    if p.stack.isEmpty then if isPlainSpace pieces then some p else none
    else (pieceText pieces).map fun chars => p.add (.text (String.ofList chars))
  | .verbatim chars => if p.stack.isEmpty then none else some (p.add (.text (String.ofList chars)))
  | .comment chars => some (p.add (.comment (String.ofList chars)))
  | .instruction target value =>
    some ((p.add (.instruction (String.ofList target) (String.ofList value))).remark
      (targetRemarks target))

/-- Reads tokens in order. -/
def Progress.run (rules : List AttributeRule) : Progress → List Token → Option Progress
  | p, [] => some p
  | p, token :: rest => (p.step rules token).bind fun p => p.run rules rest

/-- The top-level nodes of a document that is complete and at the end without fault. -/
def Progress.finish (p : Progress) : Option (List Node) :=
  if p.stack.isEmpty && p.hasRoot && p.last != some .fault then some p.done.reverse else none

/-- What a text holds: the declaration, the document type and the top-level nodes. -/
structure Contents where
  declaration : Option Declaration
  doctype : Option Doctype
  nodes : List Node

/-- Reads a document whose line ends are line feeds. -/
def readLines (cs : List Char) : Option Contents := do
  let (prolog, rest) ← takeProlog cs
  let declarations := (prolog.doctype.map (·.declarations)).getD {}
  let body ← tokens (declarations.attributeEntity maxEntityDepth) rest
  let body ← declarations.expandDocument body
  let p ← Progress.run declarations.rules {} (prolog.misc ++ body)
  let nodes ← p.finish
  return ⟨prolog.declaration, prolog.doctype, nodes⟩

/-- The mark that may stand in front of a text to tell its byte order. -/
def byteOrderMark : Char := '\ufeff'

/-- The text without a byte order mark in front. -/
def dropMark : List Char → List Char
  | c :: cs => if c == byteOrderMark then cs else c :: cs
  | [] => []

/-- Reads a document. -/
def readDocument (cs : List Char) : Option Contents :=
  readLines (Text.unifyLineEnds (dropMark cs))

end Manifest.Xml
