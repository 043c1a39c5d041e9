import Manifest.Log
import Manifest.Text.Blank
import Manifest.Text.Digit

/-!
Choosing a version among the releases of an artifact.

A release is any text; its version begins at the last run of numbers joined by dots and goes on to
its end. Versions are ranked by these numbers, not by their text, so that 2.20.10 is above 2.20.9.
`select` gives the best version that begins with the numbers asked for.
-/

set_option autoImplicit false

namespace Manifest.Release

open Text (NumeralError isDigit isDigitLike)

/--
The numbers joined by dots in front of a text, after the digits of the first one that are given
backwards.
-/
def numbersFrom (current : List Char) : List Char → List (List Char)
  | [] => [current.reverse]
  | c :: cs =>
    if isDigit c then numbersFrom (c :: current) cs
    else if c == '.' && cs.head?.any isDigit then current.reverse :: numbersFrom [] cs
    else [current.reverse]

/-- The numbers joined by dots in front of a text, if there are two at least. -/
def dottedRun? (cs : List Char) : Option (List (List Char)) :=
  let numbers := numbersFrom [] cs
  if cs.head?.any isDigit && 2 ≤ numbers.length then some numbers else none

/-- How many characters numbers take when they are joined by dots. -/
def runLength (numbers : List (List Char)) : Nat :=
  numbers.flatten.length + (numbers.length - 1)

/-- A run of numbers in a text: the numbers, and the text from the run on. -/
structure Run where
  numbers : List (List Char)
  tail : List Char
  deriving Repr, DecidableEq

/-- The last run of a text after its first characters are skipped. Runs do not overlap. -/
def lastRunAfter : Nat → List Char → Option Run
  | _, [] => none
  | skip + 1, _ :: cs => lastRunAfter skip cs
  | 0, c :: cs =>
    match dottedRun? (c :: cs) with
    | none => lastRunAfter 0 cs
    | some numbers => (lastRunAfter (runLength numbers - 1) cs).or (some ⟨numbers, c :: cs⟩)

/-- The last run of numbers joined by dots. -/
def lastRun (release : String) : Option Run :=
  lastRunAfter 0 release.toList

/-- The version: the text from the run on. -/
def Run.version (r : Run) : String :=
  String.ofList (Text.stripList r.tail)

/-- Whether the version is nothing but the run. -/
def Run.isPlain (r : Run) : Bool :=
  Text.stripList r.tail == r.tail.take (runLength r.numbers)

/-- The numbers by which a version is ranked. -/
def Run.key (r : Run) : Except NumeralError (List Nat) :=
  r.numbers.mapM Text.decimal

/-- The version that a release carries, if any. -/
def version? (release : String) : Option String :=
  (lastRun release).map Run.version

/-- The numbers by which a release is ranked, if it carries a version. -/
def key? (release : String) : Except NumeralError (Option (List Nat)) :=
  match lastRun release with
  | none => .ok none
  | some run => run.key.map some

/-- A release that can be chosen. -/
structure Candidate where
  key : List Nat
  plain : Bool
  version : String
  deriving Repr, DecidableEq

/-- Whether a candidate is chosen over one that stands before it: only a lesser one is not. -/
def Candidate.beats (later earlier : Candidate) : Bool :=
  earlier.key < later.key || (later.key == earlier.key && (later.plain || !earlier.plain))

/-- The releases that carry a version, in order. -/
def candidates : List String → Except NumeralError (List Candidate)
  | [] => .ok []
  | release :: rest =>
    match lastRun release with
    | none => candidates rest
    | some run => do
      let key ← run.key
      let others ← candidates rest
      return ⟨key, run.isPlain, run.version⟩ :: others

/-- The best of some candidates. -/
def best? : List Candidate → Option Candidate
  | [] => none
  | c :: cs => some (cs.foldl (fun best c => if c.beats best then c else best) c)

/-- What asks for the best version of all. -/
def latest : String := "latest"

/-- The parts of a text between dots. -/
def splitDots : List Char → List (List Char)
  | [] => [[]]
  | c :: cs =>
    if c == '.' then [] :: splitDots cs
    else match splitDots cs with
      | [] => [[c]]
      | part :: parts => (c :: part) :: parts

/-- The numbers asked for, if the text is nothing but digits and dots between them. -/
def requestedKey? (requested : String) : Except NumeralError (Option (List Nat)) :=
  let parts := splitDots (Text.stripList requested.toList)
  if parts.all fun part => !part.isEmpty && part.all isDigitLike then
    (parts.mapM Text.decimal).map some
  else .ok none

/-- Why no version was chosen. -/
inductive SelectError where
  /-- No release has a version that begins with the numbers asked for. -/
  | noMatch (requested : String) (releases : List String)
  /-- Some digits cannot be read as a number. -/
  | numeral (e : NumeralError)
  deriving Repr, DecidableEq

/-- The message that no release matches. -/
def noMatchMessage (requested : String) (releases : List String) : String :=
  let message := "No release matches version '" ++ requested ++ "'. "
  if releases.isEmpty then message ++ "No releases were provided."
  else message ++ "Available releases: " ++ String.intercalate ", " releases

/-- Whether a request asks for the best version of all. -/
def asksLatest (requested : String) : Bool :=
  Text.lowerAscii (Text.strip requested) == latest

/-- The candidates that a request admits. -/
def eligible (requested : String) (releases : List String) :
    Except SelectError (List Candidate) := do
  let all ← (candidates releases).mapError .numeral
  if asksLatest requested then return all
  match ← (requestedKey? requested).mapError .numeral with
  | none => .error (.noMatch requested releases)
  | some wanted => return all.filter fun c => wanted.isPrefixOf c.key

/-- The best version that a request admits. -/
def select (requested : String) (releases : List String) : Except SelectError String := do
  match best? (← eligible requested releases) with
  | none => .error (.noMatch requested releases)
  | some c => return c.version

/-- The record of a choice. -/
def selectRecord (requested version : String) (releases : List String) : Record :=
  .debug ("Resolved version '" ++ requested ++ "' -> " ++ version ++ " (from " ++
    toString releases.length ++ " releases)")

end Manifest.Release
