import Manifest.Xml.Scan

/-!
The tokens of a document: tags, character data, comments and instructions.

`tokens` cuts a text into tokens from front to back. A text that contains something else than these
has no tokens. What the tokens mean together (nesting, namespaces, entities) is not looked at here.
-/

set_option autoImplicit false

namespace Manifest.Xml

/-- One piece of markup, or the character data between two. -/
inductive Token where
  /-- A start tag; `closed` if it is the end tag as well. -/
  | startTag (name : List Char) (attributes : List (List Char × List Char)) (closed : Bool)
  | endTag (name : List Char)
  /-- Character data with its references. -/
  | data (pieces : List Piece)
  /-- Character data in which nothing is markup. -/
  | verbatim (chars : List Char)
  | comment (chars : List Char)
  | instruction (target value : List Char)
  deriving Repr, DecidableEq, Inhabited

/-- The text that an entity stands for in an attribute value, if it may occur there. -/
abbrev EntityText := List Char → Option (List Char)

/-- The value that pieces write in an attribute: white space becomes a space. -/
def attributeText (entity : EntityText) : List Piece → Option (List Char)
  | [] => some []
  | .literal c :: rest =>
    (attributeText entity rest).map ((if isSpace c then ' ' else c) :: ·)
  | .referred c :: rest => (attributeText entity rest).map (c :: ·)
  | .entity name :: rest => do
    let front ← entity name
    let back ← attributeText entity rest
    return front ++ back

/-- The value of an attribute, given what stands between its quotation marks. -/
def attributeValue (entity : EntityText) (raw : List Char) : Option (List Char) :=
  if raw.contains '<' then none else (pieces raw).bind (attributeText entity)

/-- One attribute and what follows it. -/
def takeAttribute (entity : EntityText) (cs : List Char) :
    Option ((List Char × List Char) × List Char) := do
  let (name, cs) ← takeName cs
  let cs ← skipEquals cs
  let (raw, cs) ← takeQuoted cs
  let value ← attributeValue entity raw
  return ((name, value), cs)

/--
The attributes of a start tag up to its end, whether it is closed, and what follows. At most `fuel`
attributes are read.
-/
def takeAttributes (entity : EntityText) : Nat → List Char →
    Option (List (List Char × List Char) × Bool × List Char)
  | _, '>' :: rest => some ([], false, rest)
  | _, '/' :: '>' :: rest => some ([], true, rest)
  | 0, _ => none
  | fuel + 1, cs => do
    let (first, cs) ← takeAttribute entity cs
    match cs with
    | '>' :: rest => return ([first], false, rest)
    | '/' :: '>' :: rest => return ([first], true, rest)
    | _ =>
      let cs ← skipSpaces1 cs
      let (more, closed, rest) ← takeAttributes entity fuel cs
      return (first :: more, closed, rest)

/-- A start tag, given what follows its first bracket. -/
def takeStartTag (entity : EntityText) (cs : List Char) : Option (Token × List Char) := do
  let (name, cs) ← takeName cs
  let cs := skipSpace cs
  let (attributes, closed, rest) ← takeAttributes entity cs.length cs
  return (.startTag name attributes closed, rest)

/-- An end tag, given what follows its first two characters. -/
def takeEndTag (cs : List Char) : Option (Token × List Char) := do
  let (name, cs) ← takeName cs
  let rest ← skipWord ['>'] (skipSpace cs)
  return (.endTag name, rest)

/-- A comment, given what follows its opening. Two hyphens end it, and a bracket follows them. -/
def takeComment (cs : List Char) : Option (List Char × List Char) := do
  let (chars, cs) ← splitAtWord ['-', '-'] cs
  let rest ← skipWord ['>'] cs
  if chars.all isChar then return (chars, rest) else none

/-- Whether a target is kept back for the declaration of a document, in whatever case. -/
def isReservedTarget (name : List Char) : Bool :=
  name.map Char.toLower == ['x', 'm', 'l']

/-- An instruction, given what follows its first two characters. -/
def takeInstruction (cs : List Char) : Option ((List Char × List Char) × List Char) := do
  let (target, cs) ← takeName cs
  if isReservedTarget target then none
  else match skipWord ['?', '>'] cs with
    | some rest => return ((target, []), rest)
    | none =>
      let cs ← skipSpaces1 cs
      let (value, rest) ← splitAtWord ['?', '>'] cs
      if value.all isChar then return ((target, value), rest) else none

/-- Verbatim character data, given what follows its opening. -/
def takeVerbatim (cs : List Char) : Option (List Char × List Char) := do
  let (chars, rest) ← splitAtWord [']', ']', '>'] cs
  if chars.all isChar then return (chars, rest) else none

/-- Character data up to the next bracket. It may not hold the end mark of verbatim data. -/
def takeData (cs : List Char) : Option (Token × List Char) := do
  let raw := cs.takeWhile (· != '<')
  if hasWord [']', ']', '>'] raw then none
  else return (.data (← pieces raw), cs.dropWhile (· != '<'))

/-- The token in front of a text that is not empty. -/
def takeToken (entity : EntityText) : List Char → Option (Token × List Char)
  | '<' :: '!' :: '-' :: '-' :: cs =>
    (takeComment cs).map fun (chars, rest) => (.comment chars, rest)
  | '<' :: '!' :: '[' :: 'C' :: 'D' :: 'A' :: 'T' :: 'A' :: '[' :: cs =>
    (takeVerbatim cs).map fun (chars, rest) => (.verbatim chars, rest)
  | '<' :: '?' :: cs =>
    (takeInstruction cs).map fun ((target, value), rest) => (.instruction target value, rest)
  | '<' :: '/' :: cs => takeEndTag cs
  | '<' :: cs => takeStartTag entity cs
  | cs => takeData cs

/-- The tokens of a text, at most `fuel` of them. -/
def tokensWithin (entity : EntityText) : Nat → List Char → Option (List Token)
  | _, [] => some []
  | 0, _ :: _ => none
  | fuel + 1, c :: cs => do
    let (token, rest) ← takeToken entity (c :: cs)
    let more ← tokensWithin entity fuel rest
    return token :: more

/-- The tokens of a text. -/
def tokens (entity : EntityText) (cs : List Char) : Option (List Token) :=
  tokensWithin entity cs.length cs

end Manifest.Xml
