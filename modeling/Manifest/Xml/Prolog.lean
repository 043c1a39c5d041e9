import Manifest.Xml.Doctype

/-!
What comes before the root of a document: the declaration, comments, instructions and the document
type.
-/

set_option autoImplicit false

namespace Manifest.Xml

/-- The declaration in front of a document. -/
structure Declaration where
  version : List Char
  encoding : Option (List Char) := none
  deriving Repr, DecidableEq, Inhabited

/-- A keyword with a quoted value. -/
def takeSetting (keyword : String) (cs : List Char) : Option (List Char × List Char) := do
  let cs ← skipWord keyword.toList cs
  takeQuoted (← skipEquals cs)

/-- Whether a text is a version number that a reader of version 1.0 accepts. -/
def isVersion : List Char → Bool
  | '1' :: '.' :: digits => digits.all Char.isDigit
  | _ => false

/-- Whether a text is the name of an encoding. -/
def isEncodingName : List Char → Bool
  | [] => false
  | c :: cs => c.isAlpha && cs.all fun d => d.isAlpha || d.isDigit || d == '.' || d == '_' || d == '-'

/-- The end of the declaration. -/
def endXmlDeclaration (cs : List Char) : Option (List Char) :=
  skipWord ['?', '>'] (skipSpace cs)

/-- What may follow the encoding: whether the document stands alone, and the end. -/
def takeStandalone (cs : List Char) : Option (List Char) :=
  match endXmlDeclaration cs with
  | some rest => some rest
  | none => do
    let (value, cs) ← takeSetting "standalone" (← skipSpaces1 cs)
    if value == "yes".toList || value == "no".toList then endXmlDeclaration cs else none

/-- The declaration, given what follows its keyword and the white space after it. -/
def takeXmlDeclaration (cs : List Char) : Option (Declaration × List Char) := do
  let (version, cs) ← takeSetting "version" (skipSpace cs)
  if !isVersion version then none
  else match (skipSpaces1 cs).bind (takeSetting "encoding") with
    | some (encoding, cs) =>
      if isEncodingName encoding then
        return (⟨version, some encoding⟩, ← takeStandalone cs)
      else none
    | none => return (⟨version, none⟩, ← takeStandalone cs)

/-- The declaration if a document begins with one, and what follows. -/
def takeDeclared (cs : List Char) : Option (Option Declaration × List Char) :=
  match (skipWord "<?xml".toList cs).bind skipSpaces1 with
  | some rest => (takeXmlDeclaration rest).map fun (declaration, rest) => (some declaration, rest)
  | none => some (none, cs)

/-- What was read of a document before its root. -/
structure Prolog where
  declaration : Option Declaration := none
  /-- Comments and instructions, in order. -/
  misc : List Token := []
  doctype : Option Doctype := none
  deriving Repr, DecidableEq, Inhabited

/-- Comments, instructions and at most one document type up to the first tag. -/
def takeMisc : Nat → Option Doctype → List Char →
    Option (List Token × Option Doctype × List Char)
  | 0, _, _ => none
  | fuel + 1, doctype, cs =>
    match skipSpace cs with
    | '<' :: '!' :: '-' :: '-' :: cs => do
      let (chars, cs) ← takeComment cs
      let (more, doctype, rest) ← takeMisc fuel doctype cs
      return (.comment chars :: more, doctype, rest)
    | '<' :: '?' :: cs => do
      let ((target, value), cs) ← takeInstruction cs
      let (more, doctype, rest) ← takeMisc fuel doctype cs
      return (.instruction target value :: more, doctype, rest)
    | cs =>
      match skipWord "<!DOCTYPE".toList cs with
      | some cs => do
        if doctype.isSome then none
        else
          let (type, cs) ← takeDoctype cs
          takeMisc fuel (some type) cs
      | none => some ([], doctype, cs)

/-- Everything before the root, and the text from the root on. -/
def takeProlog (cs : List Char) : Option (Prolog × List Char) := do
  let (declaration, cs) ← takeDeclared cs
  let (misc, doctype, rest) ← takeMisc (cs.length + 1) none cs
  return (⟨declaration, misc, doctype⟩, rest)

end Manifest.Xml
