import Manifest.Xml.Token

/-!
The document type declaration: its identifiers, and the entities and attribute defaults that its
internal subset declares.

The internal subset is read for well-formedness as a whole, but only entities and attribute lists
have an effect on the document.
-/

set_option autoImplicit false

namespace Manifest.Xml

/-- What a general entity stands for: a text of the document's own, or something outside it. -/
inductive EntityBody where
  | internal (text : List Char)
  | external
  deriving Repr, DecidableEq, Inhabited

/--
What an attribute list says about one attribute: whether its values are words, which are separated
by single spaces, and the value it has when a tag does not give one.
-/
structure AttributeRule where
  element : List Char
  name : List Char
  words : Bool
  value : Option (List Char)
  deriving Repr, DecidableEq, Inhabited

/-- What an internal subset declares. -/
structure Declarations where
  entities : List (List Char × EntityBody) := []
  parameters : List (List Char × List Char) := []
  rules : List AttributeRule := []
  deriving Repr, DecidableEq, Inhabited

/-- How deeply entities may stand inside each other. -/
def maxEntityDepth : Nat := 40

/-- The text an entity stands for in an attribute value, with entities nested up to a depth. -/
def Declarations.attributeEntity (d : Declarations) : Nat → EntityText
  | 0, _ => none
  | depth + 1, name =>
    match d.entities.lookup name with
    | some (.internal text) => attributeValue (d.attributeEntity depth) text
    | _ => none

/-- Adds an entity unless one of that name is declared already. -/
def Declarations.addEntity (d : Declarations) (name : List Char) (body : EntityBody) :
    Declarations :=
  if (d.entities.lookup name).isSome then d else { d with entities := (name, body) :: d.entities }

/-- Adds a parameter entity unless one of that name is declared already. -/
def Declarations.addParameter (d : Declarations) (name text : List Char) : Declarations :=
  if (d.parameters.lookup name).isSome then d
  else { d with parameters := (name, text) :: d.parameters }

/-- Adds a rule unless there is one for the same attribute. -/
def Declarations.addRule (d : Declarations) (rule : AttributeRule) : Declarations :=
  if d.rules.any fun old => old.element == rule.element && old.name == rule.name then d
  else { d with rules := d.rules ++ [rule] }

/--
The text of an entity, given what stands between the quotation marks of its declaration: numeric
references are replaced, references to entities are kept.
-/
def entityTextFrom : Option (List Char) → List Char → Option (List Char)
  | none, [] => some []
  | some _, [] => none
  | none, c :: cs =>
    if c == '&' then entityTextFrom (some []) cs
    else if c == '%' then none
    else if isChar c then (entityTextFrom none cs).map (c :: ·)
    else none
  | some seen, c :: cs =>
    if c == ';' then do
      let rest ← entityTextFrom none cs
      match seen.reverse with
      | '#' :: digits => return (← numericReference? digits) :: rest
      | name => if isRawName name then return '&' :: (name ++ ';' :: rest) else none
    else entityTextFrom (some (c :: seen)) cs

/-- A public identifier and a system identifier, each if given. -/
structure ExternalId where
  publicId : Option (List Char) := none
  systemId : Option (List Char) := none
  deriving Repr, DecidableEq, Inhabited

/-- Whether a character may occur in a public identifier. -/
def isPublicChar (c : Char) : Bool :=
  c.isAlpha || c.isDigit || " \n-'()+,./:=?;!*#@$_%".toList.contains c

/-- A quoted public identifier. -/
def takePublicLiteral (cs : List Char) : Option (List Char × List Char) := do
  let (raw, rest) ← takeQuoted cs
  if raw.all isPublicChar then return (raw, rest) else none

/-- A quoted system identifier. -/
def takeSystemLiteral (cs : List Char) : Option (List Char × List Char) := do
  let (raw, rest) ← takeQuoted cs
  if raw.all isChar then return (raw, rest) else none

/-- Where an entity or a document type is kept, if the text begins so. -/
def takeExternalId (cs : List Char) : Option (ExternalId × List Char) :=
  match skipWord "SYSTEM".toList cs with
  | some cs => do
    let (systemId, rest) ← takeSystemLiteral (← skipSpaces1 cs)
    return (⟨none, some systemId⟩, rest)
  | none => do
    let cs ← skipWord "PUBLIC".toList cs
    let (publicId, cs) ← takePublicLiteral (← skipSpaces1 cs)
    let (systemId, rest) ← takeSystemLiteral (← skipSpaces1 cs)
    return (⟨some publicId, some systemId⟩, rest)

/-- The end of a declaration: optional white space and a bracket. -/
def endDeclaration (cs : List Char) : Option (List Char) :=
  skipWord ['>'] (skipSpace cs)

/-- An entity declaration, given what follows its keyword. -/
def takeEntityDeclaration (d : Declarations) (cs : List Char) :
    Option (Declarations × List Char) := do
  let cs ← skipSpaces1 cs
  match cs with
  | '%' :: cs =>
    let (name, cs) ← takeName (← skipSpaces1 cs)
    let cs ← skipSpaces1 cs
    match takeQuoted cs with
    | some (raw, rest) =>
      let text ← entityTextFrom none raw
      return (d.addParameter name text, ← endDeclaration rest)
    | none =>
      let (_, rest) ← takeExternalId cs
      return (d.addParameter name [], ← endDeclaration rest)
  | _ =>
    let (name, cs) ← takeName cs
    let cs ← skipSpaces1 cs
    match takeQuoted cs with
    | some (raw, rest) =>
      let text ← entityTextFrom none raw
      return (d.addEntity name (.internal text), ← endDeclaration rest)
    | none =>
      let (_, rest) ← takeExternalId cs
      match skipSpaces1 rest >>= skipWord "NDATA".toList with
      | some rest =>
        let (_, rest) ← takeName (← skipSpaces1 rest)
        return (d.addEntity name .external, ← endDeclaration rest)
      | none => return (d.addEntity name .external, ← endDeclaration rest)

/-- What is left after a mark that says how often a part of the content occurs. -/
def skipOccurrence : List Char → List Char
  | '?' :: rest | '*' :: rest | '+' :: rest => rest
  | cs => cs

/--
A group of content parts, given what follows its opening bracket. The separator is the same between
all parts of a group.
-/
def skipGroup : Nat → Option Char → List Char → Option (List Char)
  | 0, _, _ => none
  | fuel + 1, separator, cs => do
    let cs ← match skipSpace cs with
      | '(' :: inner => skipGroup fuel none inner
      | cs => (takeName cs).map (·.2)
    match skipSpace (skipOccurrence cs) with
    | ')' :: rest => return rest
    | '|' :: rest => if separator == some ',' then none else skipGroup fuel (some '|') rest
    | ',' :: rest => if separator == some '|' then none else skipGroup fuel (some ',') rest
    | _ => none

/-- The names that may stand between text, given what follows the keyword for text. -/
def skipMixed : Nat → List Char → Option (List Char)
  | 0, _ => none
  | fuel + 1, cs =>
    match skipSpace cs with
    | ')' :: '*' :: rest => some rest
    | '|' :: rest => (takeName (skipSpace rest)).bind fun (_, rest) => skipMixed fuel rest
    | _ => none

/-- What an element may contain. -/
def skipContentModel (cs : List Char) : Option (List Char) :=
  match skipWord "EMPTY".toList cs, skipWord "ANY".toList cs, cs with
  | some rest, _, _ => some rest
  | _, some rest, _ => some rest
  | _, _, '(' :: inner =>
    match skipWord "#PCDATA".toList (skipSpace inner) with
    | some cs =>
      match skipSpace cs with
      | ')' :: '*' :: rest => some rest
      | ')' :: rest => some rest
      | cs => skipMixed cs.length cs
    | none => (skipGroup inner.length none inner).map skipOccurrence
  | _, _, _ => none

/-- An element declaration, given what follows its keyword. -/
def skipElementDeclaration (cs : List Char) : Option (List Char) := do
  let (_, cs) ← takeName (← skipSpaces1 cs)
  let cs ← skipContentModel (← skipSpaces1 cs)
  endDeclaration cs

/-- A list of words in brackets, separated by bars, given what follows the opening bracket. -/
def skipChoices (word : List Char → Option (List Char)) : Nat → List Char → Option (List Char)
  | 0, _ => none
  | fuel + 1, cs => do
    let cs ← word (skipSpace cs)
    match skipSpace cs with
    | ')' :: rest => return rest
    | '|' :: rest => skipChoices word fuel rest
    | _ => none

/-- A word of name characters. -/
def skipNameToken (cs : List Char) : Option (List Char) :=
  match cs with
  | c :: rest => if isRawNameChar c then some (rest.dropWhile isRawNameChar) else none
  | [] => none

/-- The kinds of attribute whose values are words, longer keywords first. -/
def wordKinds : List String :=
  ["IDREFS", "IDREF", "ID", "ENTITIES", "ENTITY", "NMTOKENS", "NMTOKEN"]

/-- The kind of an attribute: whether its values are words. -/
def takeAttributeKind (cs : List Char) : Option (Bool × List Char) :=
  match skipWord "CDATA".toList cs with
  | some rest => some (false, rest)
  | none =>
    match wordKinds.findSome? fun kind => skipWord kind.toList cs with
    | some rest => some (true, rest)
    | none =>
      match skipWord "NOTATION".toList cs, cs with
      | some cs, _ => do
        let cs ← skipWord ['('] (← skipSpaces1 cs)
        let rest ← skipChoices (fun cs => (takeName cs).map (·.2)) cs.length cs
        return (true, rest)
      | none, '(' :: cs => do
        let rest ← skipChoices skipNameToken cs.length cs
        return (true, rest)
      | none, _ => none

/-- Words separated by single spaces. -/
def joinWords (cs : List Char) : List Char :=
  let squeezed := cs.foldr (fun c acc =>
    if c == ' ' then (match acc with | ' ' :: _ => acc | _ => c :: acc) else c :: acc) []
  let front := squeezed.dropWhile (· == ' ')
  (front.reverse.dropWhile (· == ' ')).reverse

/-- What an attribute list says of one attribute after another, given what follows the element. -/
def takeRules (element : List Char) : Nat → Declarations → List Char →
    Option (Declarations × List Char)
  | 0, _, _ => none
  | fuel + 1, d, cs =>
    match endDeclaration cs with
    | some rest => some (d, rest)
    | none => do
      let (name, cs) ← takeName (← skipSpaces1 cs)
      let (words, cs) ← takeAttributeKind (← skipSpaces1 cs)
      let cs ← skipSpaces1 cs
      match skipWord "#REQUIRED".toList cs, skipWord "#IMPLIED".toList cs with
      | some cs, _ => takeRules element fuel (d.addRule ⟨element, name, words, none⟩) cs
      | _, some cs => takeRules element fuel (d.addRule ⟨element, name, words, none⟩) cs
      | none, none =>
        let cs ← match skipWord "#FIXED".toList cs with
          | some cs => skipSpaces1 cs
          | none => some cs
        let (raw, cs) ← takeQuoted cs
        let value ← attributeValue (d.attributeEntity maxEntityDepth) raw
        let value := if words then joinWords value else value
        takeRules element fuel (d.addRule ⟨element, name, words, some value⟩) cs

/-- A notation declaration, given what follows its keyword. -/
def skipNotationDeclaration (cs : List Char) : Option (List Char) := do
  let (_, cs) ← takeName (← skipSpaces1 cs)
  let cs ← skipSpaces1 cs
  match takeExternalId cs with
  | some (_, rest) => endDeclaration rest
  | none =>
    let cs ← skipWord "PUBLIC".toList cs
    let (_, rest) ← takePublicLiteral (← skipSpaces1 cs)
    endDeclaration rest

/-- One declaration in front of a text. -/
def takeDeclaration (d : Declarations) (cs : List Char) : Option (Declarations × List Char) :=
  match skipWord "<!ENTITY".toList cs, skipWord "<!ATTLIST".toList cs,
      skipWord "<!ELEMENT".toList cs, skipWord "<!NOTATION".toList cs with
  | some cs, _, _, _ => takeEntityDeclaration d cs
  | _, some cs, _, _ => do
    let (element, cs) ← takeName (← skipSpaces1 cs)
    takeRules element (cs.length + 1) d cs
  | _, _, some cs, _ => (skipElementDeclaration cs).map (d, ·)
  | _, _, _, some cs => (skipNotationDeclaration cs).map (d, ·)
  | _, _, _, _ =>
    match cs with
    | '<' :: '!' :: '-' :: '-' :: cs => (takeComment cs).map fun (_, rest) => (d, rest)
    | '<' :: '?' :: cs => (takeInstruction cs).map fun (_, rest) => (d, rest)
    | _ => none

/-- The declarations of an internal subset, given what follows its opening bracket. -/
def takeSubset : Nat → Declarations → List Char → Option (Declarations × List Char)
  | 0, _, _ => none
  | fuel + 1, d, cs =>
    match skipSpace cs with
    | ']' :: rest => some (d, rest)
    | '%' :: cs => do
      let (name, cs) ← takeName cs
      let rest ← skipWord [';'] cs
      let text ← d.parameters.lookup name
      takeSubset fuel d (' ' :: (text ++ ' ' :: rest))
    | cs => do
      let (d, rest) ← takeDeclaration d cs
      takeSubset fuel d rest

/-- How many declarations an internal subset may take beyond its length. -/
def subsetReserve : Nat := 10000

/-- The document type of a document. -/
structure Doctype where
  id : ExternalId := {}
  /-- Whether there is an internal subset, however little it declares. -/
  hasSubset : Bool := false
  declarations : Declarations := {}
  deriving Repr, DecidableEq, Inhabited

/-- A document type declaration, given what follows its keyword. -/
def takeDoctype (cs : List Char) : Option (Doctype × List Char) := do
  let (_, cs) ← takeName (← skipSpaces1 cs)
  let cs := skipSpace cs
  let (id, cs) := (takeExternalId cs).getD ({}, cs)
  match skipSpace cs with
  | '>' :: rest => return ({ id }, rest)
  | '[' :: cs =>
    let (declarations, cs) ← takeSubset (cs.length + subsetReserve) {} cs
    return (⟨id, true, declarations⟩, ← endDeclaration cs)
  | _ => none

/-- A system identifier between the quotation marks that it allows. -/
def quoteSystemId (systemId : String) : String :=
  if systemId.contains '"' then "'" ++ systemId ++ "'" else "\"" ++ systemId ++ "\""

/-- The declaration as it is written for a root of a given name, without the internal subset. -/
def Doctype.render (d : Doctype) (root : String) : String :=
  let systemId := String.ofList (d.id.systemId.getD [])
  let publicId := String.ofList (d.id.publicId.getD [])
  if publicId.isEmpty then
    if systemId.isEmpty then "<!DOCTYPE " ++ root ++ ">"
    else "<!DOCTYPE " ++ root ++ " SYSTEM " ++ quoteSystemId systemId ++ ">"
  else if systemId.isEmpty then "<!DOCTYPE " ++ root ++ " PUBLIC \"" ++ publicId ++ "\">"
  else "<!DOCTYPE " ++ root ++ " PUBLIC \"" ++ publicId ++ "\" " ++ quoteSystemId systemId ++ ">"

end Manifest.Xml
