/-!
A place in a settings text, and the characters that matter there.

A cursor knows what is left of the text, and the line and the column it is in, as indentation and
simple keys depend on both.
-/

set_option autoImplicit false

namespace Manifest.Yaml

/-- Why a text holds no value. -/
inductive Fault where
  /-- The text breaks the rules of the format. -/
  | malformed
  /-- A number, a date or the code of a character is written in a way that gives none. -/
  | badValue
  /-- The code of a character is beyond any that could be meant. -/
  | hugeCode
  /-- Something marked as a truth value is none. -/
  | badTruth
  /-- Something marked as a number is empty. -/
  | emptyNumber
  /-- Something marked as a date is the plain value of a table. -/
  | notPlain
  deriving Repr, DecidableEq

/-- Whether a character ends a line. -/
def isBreak (c : Char) : Bool :=
  c == '\n' || c == '\r' || c == '\u0085' || c == '\u2028' || c == '\u2029'

/-- Whether there is a line end or no character at all. -/
def endsLine : Option Char → Bool
  | none => true
  | some c => isBreak c

/-- Whether there is a space, a line end or no character at all. -/
def endsWord : Option Char → Bool
  | none => true
  | some c => c == ' ' || isBreak c

/-- Whether there is a space, a tab, a line end or no character at all. -/
def endsMark : Option Char → Bool
  | none => true
  | some c => c == ' ' || c == '\t' || isBreak c

/-- Whether a character may occur in the name of an anchor. -/
def isNameChar (c : Char) : Bool :=
  c.isAlphanum || c == '-' || c == '_'

/-- A place in a text. -/
structure Cursor where
  rest : List Char
  line : Nat := 0
  column : Nat := 0
  /-- How many characters stand before it. -/
  index : Nat := 0
  deriving Repr, Inhabited

namespace Cursor

/-- The character `n` places ahead. -/
def peek (c : Cursor) (n : Nat := 0) : Option Char :=
  c.rest[n]?

/-- Whether the next character is a given one. -/
def sees (c : Cursor) (x : Char) : Bool :=
  c.peek == some x

/-- The place after the next character. A byte order mark takes no column. -/
def next (c : Cursor) : Cursor :=
  match c.rest with
  | [] => c
  | x :: rest =>
    if isBreak x then ⟨rest, c.line + 1, 0, c.index + 1⟩
    else ⟨rest, c.line, if x == '\ufeff' then c.column else c.column + 1, c.index + 1⟩

/-- The place after some characters. -/
def skip : Nat → Cursor → Cursor
  | 0, c => c
  | n + 1, c => skip n c.next

/-- The characters up to the first that fails a condition, and the place of that one. -/
def span (p : Char → Bool) (c : Cursor) : List Char × Cursor :=
  let taken := c.rest.takeWhile p
  (taken, c.skip taken.length)

/-- The place after spaces. -/
def skipSpaces (c : Cursor) : Cursor :=
  (c.span (· == ' ')).2

/-- The place at the end of the line. -/
def skipLine (c : Cursor) : Cursor :=
  (c.span fun x => !isBreak x).2

/-- The place at the end of the line if a comment begins here. -/
def skipComment (c : Cursor) : Cursor :=
  if c.sees '#' then c.skipLine else c

/-- A line end as it counts in text, and the place after it. -/
def lineBreak? (c : Cursor) : Option (Char × Cursor) :=
  match c.peek with
  | none => none
  | some x =>
    if !isBreak x then none
    else if x == '\r' && c.peek 1 == some '\n' then some ('\n', c.skip 2)
    else if x == '\u2028' || x == '\u2029' then some (x, c.next)
    else some ('\n', c.next)

/-- The place after a line end, if there is one. -/
def skipBreak (c : Cursor) : Cursor :=
  (c.lineBreak?.map (·.2)).getD c

/-- Whether the mark of a document's start or end begins here. -/
def atSeparator (c : Cursor) : Bool :=
  (c.rest.take 3 == ['-', '-', '-'] || c.rest.take 3 == ['.', '.', '.']) && endsMark (c.peek 3)

/-- The end of the line after optional spaces and a comment, if nothing else is on it. -/
def lineRest? (c : Cursor) : Option Cursor :=
  let c := c.skipSpaces.skipComment
  if endsLine c.peek then some c.skipBreak else none

end Cursor

end Manifest.Yaml
