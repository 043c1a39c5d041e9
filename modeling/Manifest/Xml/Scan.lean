import Manifest.Xml.Char

/-!
Reading the front of a text: white space, names, quoted values, text up to a mark, and references.

Each function takes the characters that are left and gives what it read with the rest, or nothing
when the text does not begin as required.
-/

set_option autoImplicit false

namespace Manifest.Xml

/-- What is left after the white space in front. -/
def skipSpace (cs : List Char) : List Char :=
  cs.dropWhile isSpace

/-- What is left after white space of which there must be some. -/
def skipSpaces1 (cs : List Char) : Option (List Char) :=
  match cs with
  | c :: rest => if isSpace c then some (skipSpace rest) else none
  | [] => none

/-- What is left after a fixed word in front. -/
def skipWord : List Char → List Char → Option (List Char)
  | [], cs => some cs
  | w :: ws, c :: cs => if w == c then skipWord ws cs else none
  | _ :: _, [] => none

@[simp] theorem skipWord_append (word rest : List Char) :
    skipWord word (word ++ rest) = some rest := by
  induction word with
  | nil => rfl
  | cons w ws ih => simp [skipWord, ih]

/-- What stands before the first occurrence of a word, and what stands after it. -/
def splitAtWord (word : List Char) : List Char → Option (List Char × List Char)
  | [] => none
  | c :: cs =>
    match skipWord word (c :: cs) with
    | some rest => some ([], rest)
    | none => (splitAtWord word cs).map fun (before, after) => (c :: before, after)

/-- Whether a word occurs in a text. -/
def hasWord (word cs : List Char) : Bool :=
  (splitAtWord word cs).isSome

/-- Whether a character may occur in a name, colons included. -/
def isRawNameChar (c : Char) : Bool :=
  isNameChar c || c == ':'

/-- A name, colons included, and what follows it. -/
def takeName : List Char → Option (List Char × List Char)
  | [] => none
  | c :: cs =>
    if isNameStart c || c == ':' then
      some (c :: cs.takeWhile isRawNameChar, cs.dropWhile isRawNameChar)
    else none

/-- Whether a text is a name, colons included. -/
def isRawName : List Char → Bool
  | [] => false
  | c :: cs => (isNameStart c || c == ':') && cs.all isRawNameChar

/-- What stands between two equal quotation marks, and what follows. -/
def takeQuoted : List Char → Option (List Char × List Char)
  | [] => none
  | mark :: cs =>
    if mark == '"' || mark == '\'' then
      match cs.dropWhile (· != mark) with
      | [] => none
      | _ :: rest => some (cs.takeWhile (· != mark), rest)
    else none

/-- An equals sign with optional white space around it. -/
def skipEquals (cs : List Char) : Option (List Char) :=
  (skipWord ['='] (skipSpace cs)).map skipSpace

/-- A part of character data: a character as it stands, one named by a reference, or an entity. -/
inductive Piece where
  | literal (c : Char)
  | referred (c : Char)
  | entity (name : List Char)
  deriving Repr, DecidableEq, Inhabited

/-- The entities that every document has. -/
def builtinEntities : List (List Char × Char) :=
  [(['l', 't'], '<'), (['g', 't'], '>'), (['a', 'm', 'p'], '&'), (['q', 'u', 'o', 't'], '"'),
   (['a', 'p', 'o', 's'], '\'')]

/-- The value of a digit in a base up to sixteen. -/
def hexValue? (c : Char) : Option Nat :=
  if '0' ≤ c && c ≤ '9' then some (c.toNat - 48)
  else if 'a' ≤ c && c ≤ 'f' then some (c.toNat - 87)
  else if 'A' ≤ c && c ≤ 'F' then some (c.toNat - 55)
  else none

/-- The number that digits write in a base. -/
def numberInBase (base : Nat) : List Char → Nat → Option Nat
  | [], acc => some acc
  | c :: cs, acc => (hexValue? c).bind fun d =>
    if d < base then numberInBase base cs (base * acc + d) else none

/-- The character of a given number, if a document may hold it. -/
def documentChar? (n : Nat) : Option Char :=
  if n.isValidChar && isChar (Char.ofNat n) then some (Char.ofNat n) else none

/-- The character that a numeric reference names. -/
def numericReference? : List Char → Option Char
  | 'x' :: digits => if digits.isEmpty then none else (numberInBase 16 digits 0).bind documentChar?
  | digits => if digits.isEmpty then none else (numberInBase 10 digits 0).bind documentChar?

/-- What a reference stands for, given what is between the ampersand and the semicolon. -/
def reference? : List Char → Option Piece
  | '#' :: digits => (numericReference? digits).map .referred
  | name =>
    if isRawName name then
      match builtinEntities.lookup name with
      | some c => some (.referred c)
      | none => some (.entity name)
    else none

/--
The pieces of character data. `pending` holds what was read of a reference that is not closed yet,
the last character first.
-/
def piecesFrom : Option (List Char) → List Char → Option (List Piece)
  | none, [] => some []
  | some _, [] => none
  | none, c :: cs =>
    if c == '&' then piecesFrom (some []) cs
    else if isChar c then (piecesFrom none cs).map (.literal c :: ·)
    else none
  | some seen, c :: cs =>
    if c == ';' then do
      let piece ← reference? seen.reverse
      let rest ← piecesFrom none cs
      return piece :: rest
    else piecesFrom (some (c :: seen)) cs

/-- The pieces of character data. -/
def pieces (cs : List Char) : Option (List Piece) :=
  piecesFrom none cs

end Manifest.Xml
