import Manifest.Log
import Manifest.Text.Encoding
import Manifest.Text.Word
import Manifest.Xml.Reader

/-!
Reading documents from text and from stored bytes.

Text is read as it is, and the encoding that its declaration names is only remembered. Bytes are
decoded first: by their byte order mark, else by the encoding that the declaration names, else as
UTF-8.
-/

set_option autoImplicit false

namespace Manifest

open Text (Encoding)

/-- Why a text is no document. Each cause names where the text came from. -/
inductive ReadError where
  /-- There is nothing but white space. -/
  | empty (source : Option String)
  /-- The text is not well-formed markup. -/
  | malformed (source : Option String)
  deriving Repr, DecidableEq

/-- Where the text came from. -/
def ReadError.source : ReadError → Option String
  | .empty source | .malformed source => source

/-- A message with its place: the source in front if there is one, the line behind if known. -/
def locate (message : String) (source : Option String) (line column : Option Int) : String :=
  let located := match source with
    | some source => if source.isEmpty then message else source ++ ": " ++ message
    | none => message
  match line with
  | some line =>
    located ++ " (line " ++ toString line ++ ", column " ++ toString (column.getD 0) ++ ")"
  | none => located

/-- The message for an empty document; a malformed one has no message of this library's. -/
def ReadError.message? : ReadError → Option String
  | .empty source => some (locate "Document is empty" source none none)
  | .malformed _ => none

/-- Whether a character is white space in stored bytes. -/
def isAsciiSpace (n : Nat) : Bool :=
  n == 32 || (9 ≤ n && n ≤ 13)

/-- Whether a character may occur in the encoding name that a text declares. -/
def isDeclaredNameChar (c : Char) : Bool :=
  c.isAlphanum || c == '.' || c == '_' || c == '-'

/-- The name that a setting of the encoding gives, if the text begins with such a setting. -/
def encodingSetting? (cs : List Char) : Option (List Char) := do
  let cs ← Xml.skipWord "encoding".toList cs
  let cs ← Xml.skipWord ['='] (cs.dropWhile Text.isBlank)
  match cs.dropWhile Text.isBlank with
  | mark :: cs =>
    let name := cs.takeWhile isDeclaredNameChar
    let rest := cs.drop name.length
    if (mark == '"' || mark == '\'') && !name.isEmpty && rest.head?.any (fun c => c == '"' || c == '\'')
    then some name else none
  | [] => none

/--
The first setting of an encoding before the next closing bracket, at the beginning of a word. The
character before the text is given.
-/
def findEncodingSetting (before : Char) : List Char → Option (List Char)
  | [] => none
  | c :: cs =>
    match if Text.isWord before then none else encodingSetting? (c :: cs) with
    | some name => some name
    | none => if c == '>' then none else findEncodingSetting c cs

/-- The encoding that the beginning of a text names. -/
def namedEncoding? (text : String) : Option String := do
  let cs ← Xml.skipWord "<?xml".toList (text.toList.dropWhile Text.isBlank)
  let name ← findEncodingSetting 'l' cs
  return String.ofList name

/-- The document that was read from a text, stored in an encoding. -/
def documentOf (contents : Xml.Contents) (encoding : String) : Document :=
  let root := ((elementsOf contents.nodes).head?.map (·.name)).getD ""
  { nodes := contents.nodes
    doctype := contents.doctype.map (·.render root)
    encoding := encoding }

/-- Reads a document from text. -/
def readText (text : String) (source : Option String) : Except ReadError Document :=
  if text.toList.all fun c => isAsciiSpace c.toNat then .error (.empty source)
  else match Xml.readDocument text.toList with
    | none => .error (.malformed source)
    | some contents => .ok (documentOf contents ((namedEncoding? text).getD "UTF-8"))

/-- The encoding that the first bytes show by themselves. -/
def detectEncoding : List UInt8 → Option Encoding
  | 0xEF :: 0xBB :: 0xBF :: _ => some .utf8
  | 0xFF :: 0xFE :: 0x00 :: 0x00 :: _ => some (.utf32 false true)
  | 0x00 :: 0x00 :: 0xFE :: 0xFF :: _ => some (.utf32 true true)
  | 0xFE :: 0xFF :: _ => some (.utf16 true true)
  | 0xFF :: 0xFE :: _ => some (.utf16 false true)
  | 0x3C :: 0x00 :: 0x3F :: 0x00 :: _ => some (.utf16 false false)
  | 0x00 :: 0x3C :: 0x00 :: 0x3F :: _ => some (.utf16 true false)
  | 0x3C :: 0x00 :: 0x00 :: 0x00 :: _ => some (.utf32 false false)
  | 0x00 :: 0x00 :: 0x00 :: 0x3C :: _ => some (.utf32 true false)
  | _ => none

/-- The encoding that the declaration of a text names, if it has one and it is well-formed. -/
def declaredEncoding? (text : String) : Option String := do
  let (declaration, _) ← Xml.takeDeclared (Text.unifyLineEnds (Xml.dropMark text.toList))
  let name ← (← declaration).encoding
  return String.ofList name

/-- Whether an encoding stores the characters of a declaration as one byte each. -/
def oneByteDeclaration : Encoding → Bool
  | .utf16 .. | .utf32 .. => false
  | _ => true

/-- The text that stored bytes stand for. -/
def decodeStored (bytes : ByteArray) : Option String :=
  match detectEncoding (bytes.data.toList.take 4) with
  | some e => e.decode bytes
  | none =>
    match (Encoding.latin1.decode bytes).bind declaredEncoding? with
    | none => Encoding.utf8.decode bytes
    | some name =>
      match (Encoding.named? name).filter oneByteDeclaration with
      | some e => e.decode bytes
      | none => none

/-- What stored bytes hold, if that is well-formed. -/
def readStored (bytes : ByteArray) : Option Xml.Contents :=
  (decodeStored bytes).bind fun text => Xml.readDocument text.toList

/-- Reads a document from stored bytes. -/
def readBytes (bytes : ByteArray) (source : Option String) : Except ReadError Document :=
  if bytes.data.toList.all fun b => isAsciiSpace b.toNat then .error (.empty source)
  else match readStored bytes with
    | none => .error (.malformed source)
    | some contents =>
      let name := (contents.declaration.bind (·.encoding)).map String.ofList
      .ok (documentOf contents (name.getD "UTF-8"))

/-- The record of a document that has been read. -/
def readRecord (d : Document) (source : Option String) : Record :=
  let place := match source with
    | some source => if source.isEmpty then "<text>" else source
    | none => "<text>"
  .debug ("Parsed document source=" ++ place ++ " root=<" ++ ((d.root?.map (·.name)).getD "") ++ ">")

/-- The source given to markup that a caller writes out. -/
def fragmentSource : String := "<fragment>"

/-- Reads a document that holds one entry. -/
def readFragment (text : String) : Except ReadError Document :=
  readText text (some fragmentSource)

/-- Reads entries that stand side by side, as the children of an element around them. -/
def readEntries (text : String) : Except ReadError Document :=
  readText ("<fragment>" ++ text ++ "</fragment>") (some fragmentSource)

/-- The elements in the root of a document. -/
def Document.entries (d : Document) : List Element :=
  (d.root?.map Element.elements).getD []

/-- The entries that stand side by side in a text. -/
def entriesOfText (text : String) : Except ReadError (List Element) :=
  (readEntries text).map Document.entries

end Manifest
