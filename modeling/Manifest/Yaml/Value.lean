import Manifest.Text.Blank
import Manifest.Text.Digit
import Manifest.Yaml.Node

/-!
Values of settings texts.

A table maps keys to values in the order of their first writing; what is written later under the
same key replaces what was there. The elements of a set stand in the order of their writing. Numbers
with a point keep the decimal they were written as.
-/

set_option autoImplicit false

namespace Manifest.Yaml

/-- A value that settings can hold. -/
inductive Value where
  | null
  | bool (b : Bool)
  | int (n : Int)
  /-- The decimal `mantissa * 10 ^ exponent`, negated or not. -/
  | decimal (negative : Bool) (mantissa : Nat) (exponent : Int)
  | infinity (negative : Bool)
  | notANumber
  | text (s : String)
  | date (d : DateText)
  | bytes (content : List UInt8)
  | set (elements : List Value)
  | list (items : List Value)
  | table (entries : List (Value × Value))
  /-- The list or the table around this value that bears an anchor. -/
  | around (anchor : String)
  deriving Inhabited

namespace Value

/-- Whether a value counts as true: nothing, zero and all that is empty do not. -/
def isTrue : Value → Bool
  | .null => false
  | .bool b => b
  | .int n => n != 0
  | .decimal _ mantissa _ => mantissa != 0
  | .text s => !s.isEmpty
  | .bytes content => !content.isEmpty
  | .set elements => !elements.isEmpty
  | .list items => !items.isEmpty
  | .table entries => !entries.isEmpty
  | .infinity _ | .notANumber | .date _ | .around _ => true

/-- Whether there is a value at all. -/
def isSet : Value → Bool
  | .null => false
  | _ => true

/-- A number as a fraction: numerator and denominator. -/
def fraction? : Value → Option (Int × Nat)
  | .bool b => some (if b then 1 else 0, 1)
  | .int n => some (n, 1)
  | .decimal negative mantissa exponent =>
    let m : Int := if negative then -(mantissa : Int) else mantissa
    if 0 ≤ exponent then some (m * Int.pow 10 exponent.toNat, 1)
    else some (m, Nat.pow 10 (-exponent).toNat)
  | _ => none

/-- Whether two values are the same key. Numbers are compared by what they are worth. -/
def sameKey (a b : Value) : Bool :=
  match a, b with
  | .null, .null => true
  | .text a, .text b => a == b
  | .date a, .date b => a == b
  | .bytes a, .bytes b => a == b
  | .infinity a, .infinity b => a == b
  | a, b =>
    match a.fraction?, b.fraction? with
    | some (n, d), some (n', d') => n * (d' : Int) == n' * (d : Int)
    | _, _ => false

/-- Whether a value can be a key. -/
def isKey : Value → Bool
  | .set _ | .list _ | .table _ | .around _ => false
  | _ => true

end Value

/-- The entries of a table. -/
abbrev Entries := List (Value × Value)

/-- Entries with a value for a key, in the place of the one it had, else at the end. -/
def Entries.put (entries : Entries) (key value : Value) : Entries :=
  if entries.any fun (k, _) => k.sameKey key then
    entries.map fun (k, v) => (k, if k.sameKey key then value else v)
  else entries ++ [(key, value)]

/-- Entries overlaid by others. -/
def Entries.overlay (entries others : Entries) : Entries :=
  others.foldl (fun all (key, value) => all.put key value) entries

/-- The value under a key that is text. -/
def Entries.get? (entries : Entries) (key : String) : Option Value :=
  (entries.find? fun (k, _) => k.sameKey (.text key)).map (·.2)

/-! ### Scalars -/

/-- A sign in front of a number, and what follows it. -/
def signOf : List Char → Bool × List Char
  | '-' :: cs => (true, cs)
  | '+' :: cs => (false, cs)
  | cs => (false, cs)

/-- A number with a sign. -/
def signed (negative : Bool) (n : Int) : Int :=
  if negative then -n else n

/-- The digits after the letter that announces a base of two, eight or sixteen, if it is there. -/
def dropBaseLetter (letter : Char) (digits : List Char) : List Char :=
  match digits with
  | '0' :: x :: rest => if x.toLower == letter && !rest.isEmpty then rest else digits
  | _ => digits

/-- The number that digits write in a base. -/
def digitsInBase (base : Nat) (digits : List Char) : Option Nat :=
  if digits.isEmpty then none
  else digits.foldl (fun acc c => acc.bind fun n =>
    ((hexValue? c).filter (· < base)).map (base * n + ·)) (some 0)

/-- A whole number in a base of two, eight or sixteen. -/
def wholeInBase (base : Nat) (letter : Char) (cs : List Char) : Except Fault Int :=
  let (negative, digits) := signOf (Text.stripList cs)
  match digitsInBase base (dropBaseLetter letter digits) with
  | some n => .ok (signed negative n)
  | none => .error .badValue

/-- A whole number in base ten. -/
def wholeDecimal (cs : List Char) : Except Fault Int :=
  let (negative, digits) := signOf (Text.stripList cs)
  match Text.decimal digits with
  | .ok n => .ok (signed negative n)
  | .error _ => .error .badValue

/-- The parts of a text between colons. -/
def splitColons : List Char → List (List Char)
  | [] => [[]]
  | c :: cs =>
    if c == ':' then [] :: splitColons cs
    else match splitColons cs with
      | [] => [[c]]
      | part :: parts => (c :: part) :: parts

/-- The integer that a text writes, in whichever base its beginning announces. -/
def integer (text : String) : Except Fault Int := do
  let cs := text.toList.filter (· != '_')
  if cs.isEmpty then throw .emptyNumber
  let (negative, cs) := signOf cs
  match cs with
  | [] => throw .emptyNumber
  | ['0'] => return 0
  | '0' :: 'b' :: rest => return signed negative (← wholeInBase 2 'b' rest)
  | '0' :: 'x' :: rest => return signed negative (← wholeInBase 16 'x' rest)
  | '0' :: _ => return signed negative (← wholeInBase 8 'o' cs)
  | cs =>
    let parts ← (splitColons cs).mapM wholeDecimal
    return signed negative (parts.foldl (fun n part => 60 * n + part) 0)

/-- The exponent at the end of a number: nothing, or a sign and digits after the letter. -/
def exponentOf : List Char → Option Int
  | [] => some 0
  | 'e' :: cs =>
    let (negative, digits) := signOf cs
    if digits.isEmpty || !digits.all Char.isDigit then none
    else some (signed negative (digits.foldl (fun n c => 10 * n + (c.toNat - 48)) 0 : Nat))
  | _ => none

/-- A number with an optional point and exponent, without its sign. -/
def unsignedReal (cs : List Char) : Option (Nat × Int) := do
  let whole := cs.takeWhile Char.isDigit
  let (fraction, after) := match cs.drop whole.length with
    | '.' :: rest => (rest.takeWhile Char.isDigit, rest.dropWhile Char.isDigit)
    | rest => ([], rest)
  if whole.isEmpty && fraction.isEmpty then none
  else
    let exponent ← exponentOf after
    let mantissa := (whole ++ fraction).foldl (fun n c => 10 * n + (c.toNat - 48)) 0
    return (mantissa, exponent - fraction.length)

/-- The number with a point that a text writes, apart from those in sixtieths. -/
def simpleReal (negative : Bool) (cs : List Char) : Except Fault Value :=
  let (inner, digits) := signOf (Text.stripList cs)
  let negative := negative != inner
  match String.ofList digits with
  | "inf" | "infinity" => .ok (.infinity negative)
  | "nan" => .ok .notANumber
  | _ =>
    match unsignedReal digits with
    | some (mantissa, exponent) => .ok (.decimal negative mantissa exponent)
    | none => .error .badValue

/-- Sixty times a number and another added, neither of them negative. -/
def addSixty (a b : Nat × Int) : Nat × Int :=
  let e := min a.2 b.2
  (60 * a.1 * Nat.pow 10 (a.2 - e).toNat + b.1 * Nat.pow 10 (b.2 - e).toNat, e)

/-- The number with a point that a text writes. -/
def real (text : String) : Except Fault Value := do
  let cs := (Text.lowerAscii text).toList.filter (· != '_')
  if cs.isEmpty then throw .emptyNumber
  let (negative, cs) := signOf cs
  if cs == ".inf".toList then return .infinity negative
  else if cs == ".nan".toList then return .notANumber
  else match splitColons cs with
    | [_] => simpleReal negative cs
    | parts =>
      match parts.mapM fun part => unsignedReal (Text.stripList part) with
      | none => throw .badValue
      | some parts =>
        let (mantissa, exponent) := parts.foldl addSixty (0, 0)
        return .decimal negative mantissa exponent

/-- The number that ASCII digits write. -/
def natOf (digits : List Char) : Nat :=
  digits.foldl (fun n c => 10 * n + (c.toNat - 48)) 0

/-- How many days a month has. -/
def daysIn (year month : Nat) : Nat :=
  if month == 2 then
    if (year % 4 == 0 && year % 100 != 0) || year % 400 == 0 then 29 else 28
  else if [4, 6, 9, 11].contains month then 30 else 31

/-- Whether a date is one of the calendar, and its time one of the day. -/
def DateText.isValid (d : DateText) : Bool :=
  let year := natOf d.year
  let month := natOf d.month
  let day := natOf d.day
  1 ≤ year && 1 ≤ month && month ≤ 12 && 1 ≤ day && day ≤ daysIn year month &&
    (d.time.all fun (hour, minute, second, _) =>
      natOf hour < 24 && natOf minute < 60 && natOf second < 60) &&
    (d.zone.all fun (hours, minutes) => 60 * natOf hours + natOf minutes < 24 * 60)

/-- The signs that stand for six bits each. -/
def sixBitSigns : List Char :=
  "ABCDEFGHIJKLMNOPQRSTUVWXYZabcdefghijklmnopqrstuvwxyz0123456789+/".toList

/-- The bytes that up to four groups of six bits make. -/
def octets : List Nat → List UInt8
  | [a, b] => [.ofNat (4 * a + b / 16)]
  | [a, b, c] => [.ofNat (4 * a + b / 16), .ofNat (16 * (b % 16) + c / 4)]
  | [a, b, c, d] =>
    [.ofNat (4 * a + b / 16), .ofNat (16 * (b % 16) + c / 4), .ofNat (64 * (c % 4) + d)]
  | _ => []

/--
The bytes that signs write, after some groups of six bits and some signs that fill up; what is neither
is skipped. Enough signs that fill up end the bytes.
-/
def sixBitBytes (group : List Nat) (filled : Nat) : List Char → Option (List UInt8)
  | [] => if group.isEmpty then some [] else none
  | c :: cs =>
    if c == '=' then
      if 2 ≤ group.length then
        if 4 ≤ group.length + filled + 1 then some (octets group)
        else sixBitBytes group (filled + 1) cs
      else sixBitBytes group filled cs
    else match sixBitSigns.idxOf? c with
      | none => sixBitBytes group filled cs
      | some n =>
        if group.length == 3 then (sixBitBytes [] 0 cs).map (octets (group ++ [n]) ++ ·)
        else sixBitBytes (group ++ [n]) 0 cs

/-- The bytes that a text writes, all of whose characters must be ASCII. -/
def bytesOf (text : String) : Option (List UInt8) :=
  if text.toList.all (·.toNat < 128) then sixBitBytes [] 0 text.toList else none

/-- The value of a scalar. -/
def scalarValue (kind : Kind) (text : String) : Except Fault Value :=
  match kind with
  | .text => .ok (.text text)
  | .nothing => .ok .null
  | .truth =>
    match truths.lookup (Text.lowerAscii text) with
    | some b => .ok (.bool b)
    | none => .error .badTruth
  | .integer => (integer text).map .int
  | .real => real text
  | .date =>
    match dateText? text.toList with
    | some d => if d.isValid then .ok (.date d) else .error .badValue
    | none => .error .badValue
  | .binary =>
    match bytesOf text with
    | some content => .ok (.bytes content)
    | none => .error .malformed
  | .list | .table | .set | .pairs | .merge | .default | .unknown => .error .malformed

/-! ### Merging -/

/-- A node that is not the plain value of a table any more, but text. -/
def Node.asText : Node → Node
  | .scalar _ text => .scalar .text text
  | .list _ items => .list .text items
  | .table _ entries => .table .text entries
  | .around anchor => .around anchor

mutual

/--
A node with all merging done. A table that cannot be merged into becomes a list that is none; so does one
that is to take over the entries of a table around it.
-/
def Node.merged : Node → Node
  | .scalar kind text => .scalar kind text
  | .around anchor => .around anchor
  | .list kind items => .list kind (if kind == .pairs then mergedPairs items else mergedItems items)
  | .table kind entries =>
    if kind == .table || kind == .set then
      match mergedParts entries with
      | some (taken, own) => .table kind (taken ++ own)
      | none => .list kind []
    else .table kind entries

/-- Nodes with all merging done. -/
def mergedItems : List Node → List Node
  | [] => []
  | item :: rest => item.merged :: mergedItems rest

/-- Nodes that stand for pairs, with all merging inside the pairs done. -/
def mergedPairs : List Node → List Node
  | [] => []
  | .table kind [(key, value)] :: rest =>
    .table kind [(key.merged, value.merged)] :: mergedPairs rest
  | item :: rest => item :: mergedPairs rest

/-- The entries that a table takes over by merging, and its own. -/
def mergedParts : List (Node × Node) → Option (List (Node × Node) × List (Node × Node))
  | [] => some ([], [])
  | (key, value) :: rest =>
    match key.kind with
    | .merge => do
      let entries ← value.taken
      let (taken, own) ← mergedParts rest
      return (entries ++ taken, own)
    | .default => do
      let (taken, own) ← mergedParts rest
      return (taken, (key.asText, value.merged) :: own)
    | _ => do
      let (taken, own) ← mergedParts rest
      return (taken, (key.merged, value.merged) :: own)

/-- The entries that are taken over from a node. -/
def Node.taken : Node → Option (List (Node × Node))
  | .scalar .. | .around _ => none
  | .list _ items => (takenItems items).map fun tables => tables.reverse.flatten
  | .table _ entries => (mergedParts entries).map fun (taken, own) => taken ++ own

/-- The entries that are taken over from each of some tables. -/
def takenItems : List Node → Option (List (List (Node × Node)))
  | [] => some []
  | .table _ entries :: rest => do
    let (taken, own) ← mergedParts entries
    return (taken ++ own) :: (← takenItems rest)
  | _ :: _ => none

end

mutual

/-- The text that a node stands for: its own, or that of the plain value of a table. -/
def Node.text? : Node → Option String
  | .scalar _ text => some text
  | .list .. | .around _ => none
  | .table _ entries => plainText? entries

/-- The text of the plain value among the entries of a table. -/
def plainText? : List (Node × Node) → Option String
  | [] => none
  | (key, value) :: rest => if key.kind == .default then value.text? else plainText? rest

end

/-! ### Trees

What a collection holds is looked at only after everything that lies less deep. So of all faults in a text
the one that lies least deep counts, and of several at one depth the first. -/

/-- Something, or a fault and the depth at which it lies. -/
abbrev Made (α : Type) := Except (Nat × Fault) α

/-- Two things, one after the other. -/
def Made.both {α β : Type} (a : Made α) (b : Made β) : Made (α × β) :=
  match a, b with
  | .ok a, .ok b => .ok (a, b)
  | .ok _, .error e => .error e
  | .error e, .ok _ => .error e
  | .error e, .error later => .error (if later.1 < e.1 then later else e)

/-- What is made at a depth. -/
def Made.at {α : Type} (depth : Nat) (x : Except Fault α) : Made α :=
  x.mapError fun f => (depth, f)

/-- How much deeper than a node of a kind it shows that the node is not of its form. -/
def Kind.delay : Kind → Nat
  | .list | .table | .set | .pairs => 1
  | _ => 0

/-- What is to be the key of an entry at a depth. What cannot be one is not looked into. -/
def keyMade (depth : Nat) (key : Made Value) : Made Value :=
  match key with
  | .ok key => if key.isKey then .ok key else .error (depth, .malformed)
  | .error (found, f) => .error (if found ≤ depth then (found, f) else (depth, .malformed))

mutual

/-- The value of a node at a depth in which all merging is done. -/
def Node.value (depth : Nat) : Node → Made Value
  | .scalar kind text => .at (depth + kind.delay) (scalarValue kind text)
  | .around anchor => .ok (.around anchor)
  | .list kind items =>
    match kind with
    | .list => (itemValues (depth + 1) items).map .list
    | .pairs => (pairValues (depth + 1) items).map .list
    | _ => .error (depth + kind.delay, .malformed)
  | .table kind entries =>
    match kind with
    | .table => (entryValues (depth + 1) entries).map fun all => .table (Entries.overlay [] all)
    | .set =>
      (entryValues (depth + 1) entries).map fun all => .set ((Entries.overlay [] all).map (·.1))
    | _ =>
      match plainText? entries with
      | none => .error (depth + kind.delay, .malformed)
      | some text =>
        if kind == .date then .error (depth, .notPlain)
        else .at (depth + kind.delay) (scalarValue kind text)

/-- The values of nodes at a depth. -/
def itemValues (depth : Nat) : List Node → Made (List Value)
  | [] => .ok []
  | item :: rest =>
    ((item.value depth).both (itemValues depth rest)).map fun (item, rest) => item :: rest

/-- The values of nodes at a depth that stand for pairs. -/
def pairValues (depth : Nat) : List Node → Made (List Value)
  | [] => .ok []
  | .table _ [(key, value)] :: rest =>
    (((key.value depth).both (value.value depth)).both (pairValues depth rest)).map
      fun ((key, value), rest) => .list [key, value] :: rest
  | _ :: _ => .error (depth, .malformed)

/-- The values of entries at a depth. -/
def entryValues (depth : Nat) : List (Node × Node) → Made Entries
  | [] => .ok []
  | (key, value) :: rest =>
    (((keyMade depth (key.value depth)).both (value.value depth)).both (entryValues depth rest)).map
      fun ((key, value), rest) => (key, value) :: rest

end

/-- The value of a settings text. A text without a document holds nothing. -/
def read (text : String) : Except Fault Value := do
  match ← Node.read? text.toList with
  | none => return .null
  | some node => (node.merged.value 0).mapError (·.2)

end Manifest.Yaml
