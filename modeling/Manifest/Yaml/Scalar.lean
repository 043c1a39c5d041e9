import Manifest.Yaml.Cursor

/-!
Scalars of settings texts: plain text, quoted text, and blocks of lines.

Line ends inside plain and quoted text are folded: a single one becomes a space, of several the
first is dropped. Blocks keep their line ends or fold them, as their header says.
-/

set_option autoImplicit false

namespace Manifest.Yaml

/-! ### Plain text -/

/-- Whether a character ends plain text inside brackets. -/
def isFlowMark (c : Char) : Bool :=
  c == ',' || c == '?' || c == '[' || c == ']' || c == '\x7b' || c == '\x7d'

/-- Whether a colon followed by this ends plain text. -/
def endsKey (inFlow : Bool) (after : Option Char) : Bool :=
  endsMark after ||
    inFlow && after.any fun c => c == ',' || c == '[' || c == ']' || c == '\x7b' || c == '\x7d'

/-- The characters in front that belong to plain text without spaces. -/
def plainRun (inFlow : Bool) : List Char → List Char
  | [] => []
  | c :: cs =>
    if endsMark (some c) || (c == ':' && endsKey inFlow cs.head?) || (inFlow && isFlowMark c)
    then [] else c :: plainRun inFlow cs

/-- Text that a line end stands for, given the line ends after it. -/
def folded (first : Char) (breaks : List Char) : List Char :=
  if first != '\n' then first :: breaks else if breaks.isEmpty then [' '] else breaks

/-- White space inside plain text: what it stands for, and whether a line ended in it. -/
structure PlainSpace where
  text : List Char
  cursor : Cursor
  newLine : Bool

/-- The line ends that follow one in plain text; none if a document ends among them. -/
def plainBreaks : Nat → Cursor → List Char → Option (List Char) × Cursor
  | 0, c, breaks => (some breaks, c)
  | fuel + 1, c, breaks =>
    if c.sees ' ' then plainBreaks fuel c.next breaks
    else match c.lineBreak? with
      | none => (some breaks, c)
      | some (x, c) =>
        if c.atSeparator then (none, c) else plainBreaks fuel c (breaks ++ [x])

/-- Reads white space inside plain text. -/
def plainSpace (c : Cursor) : PlainSpace :=
  let (spaces, c) := c.span (· == ' ')
  match c.lineBreak? with
  | none => ⟨spaces, c, false⟩
  | some (first, c) =>
    if c.atSeparator then ⟨[], c, true⟩
    else match plainBreaks (c.rest.length + 1) c [] with
      | (none, c) => ⟨[], c, true⟩
      | (some breaks, c) => ⟨folded first breaks, c, true⟩

/-- Plain text, the place after it, and whether a simple key may follow. -/
structure PlainText where
  text : List Char
  cursor : Cursor
  keyAllowed : Bool

/-- Reads plain text on, given what was read and the white space after that. -/
def plainText (inFlow : Bool) (indent : Int) : Nat → Cursor → List Char → List Char → Bool → PlainText
  | 0, c, text, _, keyAllowed => ⟨text, c, keyAllowed⟩
  | fuel + 1, c, text, space, keyAllowed =>
    let run := if c.sees '#' then [] else plainRun inFlow c.rest
    if run.isEmpty then ⟨text, c, keyAllowed⟩
    else
      let text := text ++ space ++ run
      let s := plainSpace (c.skip run.length)
      if s.text.isEmpty || s.cursor.sees '#' || (!inFlow && (s.cursor.column : Int) < indent) then
        ⟨text, s.cursor, s.newLine⟩
      else plainText inFlow indent fuel s.cursor text s.text s.newLine

/-! ### Quoted text -/

/-- What a letter after a backslash stands for. -/
def escapes : List (Char × Char) :=
  [('0', '\x00'), ('a', '\x07'), ('b', '\x08'), ('t', '\t'), ('\t', '\t'), ('n', '\n'),
   ('v', '\x0b'), ('f', '\x0c'), ('r', '\r'), ('e', '\x1b'), (' ', ' '), ('"', '"'), ('\\', '\\'),
   ('/', '/'), ('N', '\u0085'), ('_', '\u00a0'), ('L', '\u2028'), ('P', '\u2029')]

/-- How many digits follow a letter that announces the code of a character. -/
def codeLength? : Char → Option Nat
  | 'x' => some 2
  | 'u' => some 4
  | 'U' => some 8
  | _ => none

/-- The value of a hexadecimal digit. -/
def hexValue? (c : Char) : Option Nat :=
  if '0' ≤ c && c ≤ '9' then some (c.toNat - 48)
  else if 'a' ≤ c && c ≤ 'f' then some (c.toNat - 87)
  else if 'A' ≤ c && c ≤ 'F' then some (c.toNat - 55)
  else none

/-- The number that hexadecimal digits write. -/
def hexNumber? (digits : List Char) : Option Nat :=
  digits.foldl (fun acc c => acc.bind fun n => (hexValue? c).map (16 * n + ·)) (some 0)

/-- The character of a given code. Half a surrogate pair is no character and is replaced. -/
def charOfCode (n : Nat) : Except Fault Char :=
  if 0x80000000 ≤ n then .error .hugeCode
  else if 0x110000 ≤ n then .error .badValue
  else if n.isValidChar then .ok (Char.ofNat n)
  else .ok '\ufffd'

/-- The line ends in quoted text, with the white space at the beginning of each line dropped. -/
def quotedBreaks : Nat → Cursor → List Char → Except Fault (List Char × Cursor)
  | 0, c, breaks => .ok (breaks, c)
  | fuel + 1, c, breaks =>
    if c.atSeparator then .error .malformed
    else
      let c := (c.span fun x => x == ' ' || x == '\t').2
      match c.lineBreak? with
      | none => .ok (breaks, c)
      | some (x, c) => quotedBreaks fuel c (breaks ++ [x])

/-- What an escape stands for, and the place after it; the cursor is after the backslash. -/
def escaped (c : Cursor) : Except Fault (List Char × Cursor) :=
  match c.peek with
  | none => .error .malformed
  | some x =>
    match escapes.lookup x, codeLength? x with
    | some y, _ => .ok ([y], c.next)
    | none, some length =>
      let digits := c.next.rest.take length
      match if digits.length == length then hexNumber? digits else none with
      | none => .error .malformed
      | some n => (charOfCode n).map fun y => ([y], c.skip (length + 1))
    | none, none =>
      match c.lineBreak? with
      | some (_, c) => quotedBreaks (c.rest.length + 1) c []
      | none => .error .malformed

/-- Reads quoted text on from inside it, given what was read. -/
def quotedText (double : Bool) : Nat → Cursor → List Char → Except Fault (List Char × Cursor)
  | 0, _, _ => .error .malformed
  | fuel + 1, c, text =>
    match c.peek with
    | none => .error .malformed
    | some x =>
      if x == ' ' || x == '\t' || isBreak x then
        let (spaces, c) := c.span fun x => x == ' ' || x == '\t'
        match c.lineBreak? with
        | none => quotedText double fuel c (text ++ spaces)
        | some (first, c) =>
          match quotedBreaks (c.rest.length + 1) c [] with
          | .error e => .error e
          | .ok (breaks, c) => quotedText double fuel c (text ++ folded first breaks)
      else if double && x == '"' then .ok (text, c.next)
      else if double && x == '\\' then
        match escaped c.next with
        | .error e => .error e
        | .ok (ys, c) => quotedText double fuel c (text ++ ys)
      else if !double && x == '\'' then
        if c.peek 1 == some '\'' then quotedText double fuel (c.skip 2) (text ++ ['\''])
        else .ok (text, c.next)
      else quotedText double fuel c.next (text ++ [x])

/-! ### Blocks -/

/-- What becomes of the line ends at the end of a block. -/
inductive Chomping where
  /-- The last one stays. -/
  | clip
  /-- All stay. -/
  | keep
  /-- None stays. -/
  | strip
  deriving Repr, DecidableEq

/-- What the header of a block says. -/
structure BlockHeader where
  chomping : Chomping := .clip
  /-- How much deeper than its surroundings the block is. -/
  increment : Option Nat := none

/-- The chomping that a sign stands for. -/
def chomping? : Option Char → Option Chomping
  | some '+' => some .keep
  | some '-' => some .strip
  | _ => none

/-- The digit in front, if there is one. -/
def digit? (c : Cursor) : Option Nat :=
  (c.peek.filter Char.isDigit).map fun x => x.toNat - 48

/-- Reads the signs of a block's header, in either order. -/
def blockSigns (c : Cursor) : BlockHeader × Cursor :=
  match chomping? c.peek with
  | some chomping =>
    let c := c.next
    match digit? c with
    | some n => (⟨chomping, some n⟩, c.next)
    | none => (⟨chomping, none⟩, c)
  | none =>
    match digit? c with
    | none => ({}, c)
    | some n =>
      let c := c.next
      match chomping? c.peek with
      | some chomping => (⟨chomping, some n⟩, c.next)
      | none => (⟨.clip, some n⟩, c)

/-- The line ends before the first line of a block, and the deepest column reached among them. -/
def blockStart : Nat → Cursor → List Char → Nat → List Char × Nat × Cursor
  | 0, c, breaks, deepest => (breaks, deepest, c)
  | fuel + 1, c, breaks, deepest =>
    if c.sees ' ' then
      let c := c.next
      blockStart fuel c breaks (max deepest c.column)
    else match c.lineBreak? with
      | some (x, c) => blockStart fuel c (breaks ++ [x]) deepest
      | none => (breaks, deepest, c)

/-- The place after spaces up to a column. -/
def skipIndent (indent : Nat) (c : Cursor) : Cursor :=
  c.skip (((c.rest.take (indent - c.column)).takeWhile (· == ' ')).length)

/-- The line ends before the next line of a block. -/
def blockBreaks (indent : Nat) : Nat → Cursor → List Char → List Char × Cursor
  | 0, c, breaks => (breaks, c)
  | fuel + 1, c, breaks =>
    let c := skipIndent indent c
    match c.lineBreak? with
    | some (x, c) => blockBreaks indent fuel c (breaks ++ [x])
    | none => (breaks, c)

/-- Whether a line of a block begins with white space. -/
def opensBlank (c : Cursor) : Bool :=
  c.peek.any fun x => x == ' ' || x == '\t'

/-- What a block ends with. -/
def chomp (chomping : Chomping) (lineEnd breaks : List Char) : List Char :=
  match chomping with
  | .clip => lineEnd
  | .keep => lineEnd ++ breaks
  | .strip => []

/--
Reads the lines of a block on: `breaks` are the line ends since the last line, `lineEnd` is the one
at its end.
-/
def blockLines (fold : Bool) (chomping : Chomping) (indent : Nat) :
    Nat → Cursor → List Char → List Char → List Char → List Char × Cursor
  | 0, c, text, lineEnd, breaks => (text ++ chomp chomping lineEnd breaks, c)
  | fuel + 1, c, text, lineEnd, breaks =>
    if c.column == indent && c.peek.isSome then
      let text := text ++ breaks
      let blank := opensBlank c
      let (line, c) := c.span fun x => !isBreak x
      let (lineEnd, c) := match c.lineBreak? with
        | some (x, c) => ([x], c)
        | none => ([], c)
      let (breaks, c) := blockBreaks indent (c.rest.length + 1) c []
      let text := text ++ line
      if c.column == indent && c.peek.isSome then
        let between :=
          if fold && lineEnd == ['\n'] && !blank && !opensBlank c then
            if breaks.isEmpty then [' '] else []
          else lineEnd
        blockLines fold chomping indent fuel c (text ++ between) lineEnd breaks
      else (text ++ chomp chomping lineEnd breaks, c)
    else (text ++ chomp chomping lineEnd breaks, c)

/-- Reads a block; the cursor is after the sign that announces it. -/
def blockText (fold : Bool) (outer : Int) (c : Cursor) : Except Fault (List Char × Cursor) :=
  let (header, c) := blockSigns c
  if header.increment == some 0 || !endsWord c.peek then .error .malformed
  else match c.lineRest? with
    | none => .error .malformed
    | some c =>
      let least := (max (outer + 1) 1).toNat
      let fuel := c.rest.length + 1
      match header.increment with
      | some n =>
        let indent := least + n - 1
        let (breaks, c) := blockBreaks indent fuel c []
        .ok (blockLines fold header.chomping indent fuel c [] [] breaks)
      | none =>
        let (breaks, deepest, c) := blockStart fuel c [] 0
        .ok (blockLines fold header.chomping (max least deepest) fuel c [] [] breaks)

end Manifest.Yaml
