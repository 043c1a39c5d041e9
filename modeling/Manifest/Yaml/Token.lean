import Manifest.Text.Ranges
import Manifest.Yaml.Scalar

/-!
Tokens of settings texts.

Nesting by indentation is made explicit: a block begins with a token of its own where a line is
deeper than the ones around it, and ends where one is less deep. That something is a key shows only
at the colon after it, so the tokens that announce it are put in front of it then.
-/

set_option autoImplicit false

namespace Manifest.Yaml

/-- A line in front of a document that says how to read it. -/
inductive Directive where
  | version (major : Nat)
  | tag (handle pfx : String)
  | other
  deriving Repr, DecidableEq

/-- One token. -/
inductive Token where
  | directive (d : Directive)
  | documentStart
  | documentEnd
  | blockSequenceStart
  | blockMappingStart
  | blockEnd
  | flowSequenceStart
  | flowSequenceEnd
  | flowMappingStart
  | flowMappingEnd
  | blockEntry
  | flowEntry
  | key
  | value
  | alias (name : String)
  | anchor (name : String)
  | tag (handle : Option String) (suffix : String)
  | scalar (text : String) (plain : Bool)
  | streamEnd
  deriving Repr, DecidableEq, Inhabited

/-- A place where a key may have begun. -/
structure PossibleKey where
  /-- How many brackets are open around it. -/
  depth : Nat
  /-- How many tokens stand before it. -/
  number : Nat
  /-- Nothing but a key is allowed there. -/
  required : Bool
  place : Cursor

/-- How far a text has been read. -/
structure Scanner where
  cursor : Cursor
  /-- How many brackets are open. -/
  depth : Nat := 0
  indent : Int := -1
  indents : List Int := []
  keyAllowed : Bool := true
  keys : List PossibleKey := []
  tokens : List Token := []

namespace Scanner

/-- Whether any bracket is open. -/
def inFlow (s : Scanner) : Bool :=
  s.depth != 0

/-- The column as it compares with indentation. -/
def column (s : Scanner) : Int :=
  s.cursor.column

/-- The scanner with one more token. -/
def push (s : Scanner) (t : Token) : Scanner :=
  { s with tokens := s.tokens ++ [t] }

/-- The scanner with a token among the others. -/
def splice (s : Scanner) (number : Nat) (t : Token) : Scanner :=
  { s with tokens := s.tokens.take number ++ t :: s.tokens.drop number }

/-- Whether a place is too far back to have been the beginning of a key. -/
def isStale (s : Scanner) (k : PossibleKey) : Bool :=
  k.place.line != s.cursor.line || 1024 < s.cursor.index - k.place.index

/-- Forgets places that cannot have been keys any more. -/
def dropStale (s : Scanner) : Except Fault Scanner :=
  if s.keys.any fun k => s.isStale k && k.required then .error .malformed
  else .ok { s with keys := s.keys.filter fun k => !s.isStale k }

/-- Forgets the place where a key may have begun in the innermost brackets. -/
def dropKey (s : Scanner) : Except Fault Scanner :=
  if s.keys.any fun k => k.depth == s.depth && k.required then .error .malformed
  else .ok { s with keys := s.keys.filter fun k => k.depth != s.depth }

/-- Remembers that a key may begin here. -/
def saveKey (s : Scanner) : Except Fault Scanner :=
  if !s.keyAllowed then .ok s
  else do
    let required := !s.inFlow && s.indent == s.column
    let s ← s.dropKey
    return { s with keys := s.keys ++ [⟨s.depth, s.tokens.length, required, s.cursor⟩] }

/-- The indentations left when those deeper than a column end, with the tokens of their ends. -/
def closeBlocks (column indent : Int) : List Int → Int × List Int × List Token
  | [] => (indent, [], [])
  | outer :: rest =>
    if column < indent then
      let (indent, indents, tokens) := closeBlocks column outer rest
      (indent, indents, .blockEnd :: tokens)
    else (indent, outer :: rest, [])

/-- Ends the blocks that are deeper than a column; inside brackets none ends. -/
def unwind (s : Scanner) (column : Int) : Scanner :=
  if s.inFlow then s
  else
    let (indent, indents, tokens) := closeBlocks column s.indent s.indents
    { s with indent := indent, indents := indents, tokens := s.tokens ++ tokens }

/-- Whether a column is deeper than the current block. -/
def isDeeper (s : Scanner) (column : Int) : Bool :=
  s.indent < column

/-- Begins a block at a column. -/
def deepen (s : Scanner) (column : Int) : Scanner :=
  { s with indents := s.indent :: s.indents, indent := column }

/-- Begins a block of a kind at this column if that is deeper than the current block. -/
def openBlock (s : Scanner) (t : Token) : Scanner :=
  if s.isDeeper s.column then (s.deepen s.column).push t else s

/-- A token of some characters. -/
def mark (s : Scanner) (length : Nat) (t : Token) : Scanner :=
  { s.push t with cursor := s.cursor.skip length }

/-- A token that has been read up to a place. -/
def accept (s : Scanner) (t : Token) (after : Cursor) : Scanner :=
  { s.push t with cursor := after }

/-- Goes to the next token, over spaces, comments and line ends. -/
def skipToToken : Nat → Scanner → Scanner
  | 0, s => s
  | fuel + 1, s =>
    let c := s.cursor.skipSpaces.skipComment
    match c.lineBreak? with
    | none => { s with cursor := c }
    | some (_, c) =>
      skipToToken fuel { s with cursor := c, keyAllowed := s.keyAllowed || !s.inFlow }

/-! ### Marks -/

/-- The end of the text. -/
def finish (s : Scanner) : Except Fault Scanner := do
  let s ← (s.unwind (-1)).dropKey
  return { s with keyAllowed := false, keys := [] }.push .streamEnd

/-- The start or the end of a document. -/
def separator (s : Scanner) (t : Token) : Except Fault Scanner := do
  let s ← (s.unwind (-1)).dropKey
  return { s with keyAllowed := false }.mark 3 t

/-- An opening bracket. -/
def openFlow (s : Scanner) (t : Token) : Except Fault Scanner := do
  let s ← s.saveKey
  return { s with depth := s.depth + 1, keyAllowed := true }.mark 1 t

/-- A closing bracket. -/
def closeFlow (s : Scanner) (t : Token) : Except Fault Scanner := do
  let s ← s.dropKey
  if s.depth == 0 then .error .malformed
  else return { s with depth := s.depth - 1, keyAllowed := false }.mark 1 t

/-- A comma between entries. -/
def flowEntry (s : Scanner) : Except Fault Scanner := do
  let s ← { s with keyAllowed := true }.dropKey
  return s.mark 1 .flowEntry

/-- The dash of a list entry. -/
def blockEntry (s : Scanner) : Except Fault Scanner := do
  if !s.inFlow && !s.keyAllowed then .error .malformed
  else
    let s := if s.inFlow then s else s.openBlock .blockSequenceStart
    let s ← { s with keyAllowed := true }.dropKey
    return s.mark 1 .blockEntry

/-- The question mark of a key. -/
def complexKey (s : Scanner) : Except Fault Scanner := do
  if !s.inFlow && !s.keyAllowed then .error .malformed
  else
    let s := if s.inFlow then s else s.openBlock .blockMappingStart
    let s ← { s with keyAllowed := !s.inFlow }.dropKey
    return s.mark 1 .key

/-- The colon before a value. What may have been a key turns out to be one. -/
def value (s : Scanner) : Except Fault Scanner :=
  match s.keys.find? (·.depth == s.depth) with
  | some k =>
    let s := { s with keys := s.keys.filter (·.depth != s.depth) }
    let s := s.splice k.number .key
    let column : Int := k.place.column
    let s :=
      if !s.inFlow && s.isDeeper column then (s.deepen column).splice k.number .blockMappingStart
      else s
    .ok ({ s with keyAllowed := false }.mark 1 .value)
  | none => do
    if !s.inFlow && !s.keyAllowed then .error .malformed
    else
      let s := if s.inFlow then s else s.openBlock .blockMappingStart
      let s ← { s with keyAllowed := !s.inFlow }.dropKey
      return s.mark 1 .value

/-! ### Names -/

/-- The name of an anchor or an alias. -/
def nameToken (s : Scanner) (make : String → Token) : Except Fault Scanner := do
  let s ← s.saveKey
  let (name, c) := s.cursor.next.span isNameChar
  let ends := match c.peek with
    | none => true
    | some x => endsMark (some x) || ['?', ':', ',', ']', '\x7d', '%', '@', '\x60'].contains x
  if name.isEmpty || !ends then .error .malformed
  else return { s with keyAllowed := false }.accept (make (String.ofList name)) c

/-- Whether a character may occur in a tag as it stands. -/
def isUriChar (c : Char) : Bool :=
  isNameChar c || ";/?:@&=+$,.!~*'()[]".toList.contains c

/-- The bytes that escapes with a percent sign stand for, and the place after them. -/
def uriBytes : Nat → Cursor → Option (List UInt8 × Cursor)
  | 0, c => some ([], c)
  | fuel + 1, c =>
    if !c.sees '%' then some ([], c)
    else
      match c.peek 1 >>= hexValue?, c.peek 2 >>= hexValue? with
      | some a, some b =>
        (uriBytes fuel (c.skip 3)).map fun (bytes, c) => (UInt8.ofNat (16 * a + b) :: bytes, c)
      | _, _ => none

/-- Text in which some characters are escaped by their bytes. -/
def uriText : Nat → Cursor → Option (List Char × Cursor)
  | 0, c => some ([], c)
  | fuel + 1, c =>
    match c.peek with
    | none => some ([], c)
    | some x =>
      if x == '%' then do
        let (bytes, c) ← uriBytes (c.rest.length + 1) c
        let text ← String.fromUTF8? ⟨bytes.toArray⟩
        let (more, c) ← uriText fuel c
        return (text.toList ++ more, c)
      else if isUriChar x then (uriText fuel c.next).map fun (more, c) => (x :: more, c)
      else some ([], c)

/-- Text of a tag, of which there must be some. -/
def uri (c : Cursor) : Except Fault (String × Cursor) :=
  match uriText (c.rest.length + 1) c with
  | none => .error .malformed
  | some (text, after) =>
    if after.index == c.index then .error .malformed else .ok (String.ofList text, after)

/-- The handle of a tag: a name between exclamation marks, or a single one. -/
def handle (c : Cursor) : Except Fault (String × Cursor) :=
  if !c.sees '!' then .error .malformed
  else if c.next.sees ' ' then .ok ("!", c.next)
  else
    let (name, after) := c.next.span isNameChar
    if after.sees '!' then .ok (String.ofList ('!' :: name ++ ['!']), after.next)
    else .error .malformed

/-- The handle and the suffix of a tag, and the place after it. -/
def tagName (c : Cursor) : Except Fault (Option String × String × Cursor) := do
  if c.peek 1 == some '<' then
    let (suffix, after) ← uri (c.skip 2)
    if after.sees '>' then return (none, suffix, after.next) else throw .malformed
  else if endsMark (c.peek 1) then return (none, "!", c.next)
  else
    let word := c.next.rest.takeWhile fun x => !endsWord (some x)
    let (name, c) ← if word.contains '!' then handle c else pure ("!", c.next)
    let (suffix, after) ← uri c
    return (some name, suffix, after)

/-- A tag. -/
def tagToken (s : Scanner) : Except Fault Scanner := do
  let s ← s.saveKey
  let (name, suffix, after) ← tagName s.cursor
  if endsWord after.peek then
    return { s with keyAllowed := false }.accept (.tag name suffix) after
  else throw .malformed

/-! ### Directives -/

/-- A number in a directive. -/
def number (c : Cursor) : Except Fault (Nat × Cursor) :=
  let (digits, after) := c.span Char.isDigit
  if digits.isEmpty then .error .malformed
  else .ok (digits.foldl (fun n d => 10 * n + (d.toNat - 48)) 0, after)

/-- What a directive says, given its name. -/
def directiveBody (name : String) (c : Cursor) : Except Fault (Directive × Cursor) := do
  if name == "YAML" then
    let (major, c) ← number c.skipSpaces
    if !c.sees '.' then throw .malformed
    let (_, c) ← number c.next
    if endsWord c.peek then return (.version major, c) else throw .malformed
  else if name == "TAG" then
    let (name, c) ← handle c.skipSpaces
    if !c.sees ' ' then throw .malformed
    let (pfx, c) ← uri c.skipSpaces
    if endsWord c.peek then return (.tag name pfx, c) else throw .malformed
  else return (.other, c.skipLine)

/-- A directive. -/
def directiveToken (s : Scanner) : Except Fault Scanner := do
  let s ← (s.unwind (-1)).dropKey
  let (name, c) := s.cursor.next.span isNameChar
  if name.isEmpty || !endsWord c.peek then .error .malformed
  else
    let (d, c) ← directiveBody (String.ofList name) c
    match c.lineRest? with
    | none => .error .malformed
    | some c => return { s with keyAllowed := false }.accept (.directive d) c

/-! ### Scalars -/

/-- A block of lines. -/
def blockScalar (s : Scanner) (fold : Bool) : Except Fault Scanner := do
  let s ← { s with keyAllowed := true }.dropKey
  let (text, c) ← blockText fold s.indent s.cursor.next
  return s.accept (.scalar (String.ofList text) false) c

/-- Quoted text. -/
def quotedScalar (s : Scanner) (double : Bool) : Except Fault Scanner := do
  let s ← s.saveKey
  let c := s.cursor.next
  let (text, c) ← quotedText double (c.rest.length + 1) c []
  return { s with keyAllowed := false }.accept (.scalar (String.ofList text) false) c

/-- Plain text. -/
def plainScalar (s : Scanner) : Except Fault Scanner := do
  let s ← s.saveKey
  let t := plainText s.inFlow (s.indent + 1) (s.cursor.rest.length + 1) s.cursor [] [] false
  return { s with keyAllowed := t.keyAllowed }.accept (.scalar (String.ofList t.text) true) t.cursor

/-- Whether plain text may begin with a character, given the one after it. -/
def beginsPlain (inFlow : Bool) (x : Char) (after : Option Char) : Bool :=
  !(endsMark (some x) || "-?:,[]\x7b\x7d#&*!|>'\"%@\x60".toList.contains x) ||
    (!endsMark after && (x == '-' || (!inFlow && (x == '?' || x == ':'))))

/-- Reads the next token. The scanner is at its first character. -/
def nextToken (s : Scanner) (x : Char) : Except Fault Scanner :=
  let c := s.cursor
  let alone := endsMark (c.peek 1)
  let atLineStart := c.column == 0
  if x == '%' && atLineStart then s.directiveToken
  else if x == '-' && atLineStart && c.atSeparator then s.separator .documentStart
  else if x == '.' && atLineStart && c.atSeparator then s.separator .documentEnd
  else if x == '[' then s.openFlow .flowSequenceStart
  else if x == '\x7b' then s.openFlow .flowMappingStart
  else if x == ']' then s.closeFlow .flowSequenceEnd
  else if x == '\x7d' then s.closeFlow .flowMappingEnd
  else if x == ',' then s.flowEntry
  else if x == '-' && alone then s.blockEntry
  else if x == '?' && (s.inFlow || alone) then s.complexKey
  else if x == ':' && (s.inFlow || alone) then s.value
  else if x == '*' then s.nameToken .alias
  else if x == '&' then s.nameToken .anchor
  else if x == '!' then s.tagToken
  else if x == '|' && !s.inFlow then s.blockScalar false
  else if x == '>' && !s.inFlow then s.blockScalar true
  else if x == '\'' then s.quotedScalar false
  else if x == '"' then s.quotedScalar true
  else if beginsPlain s.inFlow x (c.peek 1) then s.plainScalar
  else .error .malformed

/-- Reads tokens to the end of the text or to a fault. -/
def run : Nat → Scanner → List Token × Fault
  | 0, s => (s.tokens, .malformed)
  | fuel + 1, s =>
    match (skipToToken (s.cursor.rest.length + 1) s).dropStale with
    | .error e => (s.tokens, e)
    | .ok s =>
      let s := s.unwind s.column
      match s.cursor.peek with
      | none =>
        match s.finish with
        | .ok s => (s.tokens, .malformed)
        | .error e => (s.tokens, e)
      | some x =>
        match s.nextToken x with
        | .ok s => run fuel s
        | .error e => (s.tokens, e)

end Scanner

/-- Code points that may occur in a settings text. -/
def printable : Text.Ranges :=
  [(0x9, 0xA), (0xD, 0xD), (0x20, 0x7E), (0x85, 0x85), (0xA0, 0xD7FF), (0xE000, 0xFFFD),
   (0x10000, 0x10FFFF)]

/-- The tokens of a text, up to a fault if there is one; a whole text ends with its own token. -/
def tokens (text : List Char) : List Token × Fault :=
  if text.all printable.has then
    let text := match text with
      | '\ufeff' :: rest => rest
      | text => text
    Scanner.run (text.length + 1) { cursor := { rest := text } }
  else ([], .malformed)

end Manifest.Yaml
