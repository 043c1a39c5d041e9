import Manifest.Text.Digit
import Manifest.Text.Word

/-!
Templates of the lines that a handler writes. Their fields are marked in one of three ways.

A template is usable if its fields are well formed and there is at least one.
-/

set_option autoImplicit false

namespace Manifest.Logging

/-- How a template marks its fields. -/
inductive Marking where
  /-- A field is a name in parentheses between a percent sign and a conversion. -/
  | percent
  /-- A field is a name in braces, with an optional conversion and specifier. -/
  | brace
  /-- A field is a name after a dollar sign. -/
  | dollar
  deriving Repr, DecidableEq

namespace Marking

/-- The signs of the markings. -/
def signs : List (String × Marking) :=
  [("%", .percent), ("\x7b", .brace), ("$", .dollar)]

end Marking

namespace Template

open Text (isWord isDigit)

/-! ### Percent signs -/

/-- The letters that may end a field, in either case, and their other spellings. -/
def conversions : List Char :=
  "diouxefgcrsaDIOUXEFGCRSA%ıİſ".toList

/-- What follows a width: a star, digits or nothing. -/
def dropWidth : List Char → List Char
  | '*' :: cs => cs
  | cs => cs.dropWhile isDigit

/-- What follows a precision, if there is one or none is begun. -/
def dropPrecision : List Char → List Char
  | '.' :: '*' :: cs => cs
  | '.' :: c :: cs => if isDigit c then cs.dropWhile isDigit else '.' :: c :: cs
  | cs => cs

/-- Whether the rest of a field follows its name. -/
def endsPercentField (cs : List Char) : Bool :=
  match dropPrecision (dropWidth (cs.dropWhile "#0+ -".toList.contains)) with
  | c :: _ => conversions.contains c
  | [] => false

/-- Whether a text begins with a field. -/
def startsPercentField : List Char → Bool
  | '%' :: '(' :: cs =>
    !(cs.takeWhile isWord).isEmpty &&
      match cs.dropWhile isWord with
      | ')' :: rest => endsPercentField rest
      | _ => false
  | _ => false

/-- Whether there is a field anywhere in a text. -/
def hasPercentField : List Char → Bool
  | [] => false
  | c :: cs => startsPercentField (c :: cs) || hasPercentField cs

/-! ### Dollar signs -/

/-- Whether a character can begin a name. -/
def startsName (c : Char) : Bool :=
  c.isAlpha || c == '_'

/-- Whether a character can be in a name. -/
def inName (c : Char) : Bool :=
  c.isAlphanum || c == '_'

/-- Whether a text begins with a name in braces. -/
def startsBraced (cs : List Char) : Bool :=
  match cs with
  | '\x7b' :: c :: rest => startsName c && (rest.dropWhile inName).head? == some '\x7d'
  | _ => false

/-- Whether all fields are well formed; `found` tells whether there was one. -/
def dollarFields (found : Bool) : List Char → Bool
  | [] => found
  | '$' :: '$' :: cs => dollarFields found cs
  | '$' :: c :: cs =>
    if startsName c || startsBraced (c :: cs) then dollarFields true cs else false
  | c :: cs => if c == '$' then false else dollarFields found cs

/-! ### Braces -/

/-- One field in braces. -/
structure Field where
  name : List Char
  conversion : Option Char := none
  specifier : List Char := []

/-- The specifier up to the brace that closes the field, `open'` braces being open in it. -/
def readSpecifier (open' : Nat) : List Char → Option (List Char × List Char)
  | [] => none
  | c :: cs =>
    if c == '\x7d' then
      match open' with
      | 0 => some ([], cs)
      | n + 1 => (readSpecifier n cs).map fun (s, rest) => (c :: s, rest)
    else if c == '\x7b' then (readSpecifier (open' + 1) cs).map fun (s, rest) => (c :: s, rest)
    else (readSpecifier open' cs).map fun (s, rest) => (c :: s, rest)

/-- The name of a field, the sign that ends it, and what follows. Brackets may hold any sign. -/
def readName (bracket : Bool) : List Char → Option (List Char × Char × List Char)
  | [] => none
  | c :: cs =>
    if bracket then (readName (c != ']') cs).map fun (name, rest) => (c :: name, rest)
    else if c == '\x7b' then none
    else if c == '\x7d' || c == ':' || c == '!' then some ([], c, cs)
    else (readName (c == '[') cs).map fun (name, rest) => (c :: name, rest)

/-- The field that a text begins with, behind its opening brace. -/
def readField (cs : List Char) : Option (Field × List Char) := do
  let (name, sign, rest) ← readName false cs
  if sign == '\x7d' then return ({ name }, rest)
  else if sign == ':' then
    let (specifier, rest) ← readSpecifier 0 rest
    return ({ name, specifier }, rest)
  else match rest with
    | c :: '\x7d' :: rest => return ({ name, conversion := some c }, rest)
    | c :: ':' :: rest =>
      let (specifier, rest) ← readSpecifier 0 rest
      return ({ name, conversion := some c, specifier }, rest)
    | _ => none

/-- Whether a text is made of parts that pick something out of a value. -/
def isSelection : Nat → List Char → Bool
  | _, [] => true
  | _, ['\n'] => true
  | fuel + 1, '.' :: cs =>
    !(cs.takeWhile isWord).isEmpty && isSelection fuel (cs.dropWhile isWord)
  | fuel + 1, '[' :: cs =>
    !(cs.takeWhile (· != ']')).isEmpty &&
      match cs.dropWhile (· != ']') with
      | _ :: rest => isSelection fuel rest
      | [] => false
  | _, _ => false

/-- Whether a field has a good name. -/
def isFieldName (name : List Char) : Bool :=
  !(name.takeWhile isWord).isEmpty && isSelection name.length (name.dropWhile isWord)

/-- What may follow an optional sign: the text without it, and the text as it is. -/
def without (ok : Char → Bool) (cs : List Char) : List (List Char) :=
  match cs with
  | c :: rest => if ok c then [rest, cs] else [cs]
  | [] => [cs]

/-- What may follow an optional filling and alignment. -/
def withoutAlignment (cs : List Char) : List (List Char) :=
  let aligns := "<>=^".toList.contains
  let filled := match cs with
    | c :: d :: rest => if c != '\n' && aligns d then [rest] else []
    | _ => []
  filled ++ without aligns cs

/-- What may follow a number, or a name in braces in its place. -/
def withoutNumber (cs : List Char) : List (List Char) :=
  match cs with
  | '\x7b' :: rest =>
    if (rest.takeWhile isWord).isEmpty then []
    else match rest.dropWhile isWord with
      | '\x7d' :: rest => [rest]
      | _ => []
  | _ => if (cs.takeWhile isDigit).isEmpty then [] else [cs.dropWhile isDigit]

/-- What may follow an optional number after a point. -/
def withoutFraction (cs : List Char) : List (List Char) :=
  match cs with
  | '.' :: rest => cs :: withoutNumber rest
  | _ => [cs]

/-- Whether a specifier is well formed. -/
def isSpecifier (cs : List Char) : Bool :=
  let kinds := "bcdefgnosxBCDEFGNOSX%ſ".toList.contains
  let rests := (withoutAlignment cs).flatMap (without "+ -".toList.contains) |>.flatMap
    (without (· == '#')) |>.flatMap (without (· == '0')) |>.flatMap
    (fun cs => cs :: withoutNumber cs) |>.flatMap (without ",_".toList.contains) |>.flatMap
    withoutFraction |>.flatMap (without kinds)
  rests.any fun rest => rest.isEmpty || rest == ['\n']

/-- Whether a field is well formed. -/
def Field.isGood (f : Field) : Bool :=
  (f.name.isEmpty || isFieldName f.name) && f.conversion.all "rsa".toList.contains &&
    (f.specifier.isEmpty || isSpecifier f.specifier)

/-- Whether all fields are well formed; `found` tells whether there was one with a name. -/
def braceFields (found : Bool) : Nat → List Char → Bool
  | _, [] => found
  | 0, _ => false
  | _, ['\x7b'] | _, ['\x7d'] => false
  | fuel + 1, '\x7b' :: '\x7b' :: cs => braceFields found fuel cs
  | fuel + 1, '\x7d' :: '\x7d' :: cs => braceFields found fuel cs
  | fuel + 1, c :: cs =>
    if c == '\x7d' then false
    else if c == '\x7b' then
      match readField cs with
      | some (f, rest) => f.isGood && braceFields (found || !f.name.isEmpty) fuel rest
      | none => false
    else braceFields found fuel cs

/-- Whether a template can be used. -/
def isUsable (m : Marking) (text : String) : Bool :=
  match m with
  | .percent => hasPercentField text.toList
  | .dollar => dollarFields false text.toList
  | .brace => braceFields false (text.length + 1) text.toList

end Template

end Manifest.Logging
