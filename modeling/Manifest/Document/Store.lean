import Manifest.Document.Read
import Manifest.Document.Write
import Manifest.Text.Encoding
import Manifest.World

/-!
Documents in files.

A document is stored in the encoding that it names, and the file is replaced in one go, so that a
document that cannot be written leaves the file as it was.
-/

set_option autoImplicit false

namespace Manifest

/-- Why a document cannot be loaded or saved. -/
inductive StoreError where
  | file (e : FileError)
  | read (e : ReadError)
  | write (e : WriteError)
  /-- There is no encoding of the name that the document gives. -/
  | unknownEncoding
  /-- The encoding has no bytes for some character. -/
  | unencodable
  deriving Repr, DecidableEq

/-- The bytes of a text in the encoding of a given name. -/
def encodeAs (name text : String) : Except StoreError ByteArray :=
  match Text.Encoding.named? name with
  | none => .error .unknownEncoding
  | some e =>
    match e.encode text with
    | none => .error .unencodable
    | some bytes => .ok bytes

namespace Document

/-- Passes a document on that was read from a source, and records it. -/
def recordRead (r : Except ReadError Document) (source : String) : Action StoreError Document := do
  let d ← Action.ofExcept .read r
  Action.record [readRecord d (some source)]
  return d

/-- Loads the document in a file. -/
def load (p : Path) : Action StoreError Document := do
  let bytes ← Action.ofExcept .file ((← Action.tree).read p)
  Action.record
    [.debug ("I/O: read XML path=" ++ p.text ++ " bytes=" ++ toString bytes.size)]
  recordRead (readBytes bytes (some p.text)) p.text

/-- Reads the template of the document for a file. -/
def readTemplate (p : Path) (template : String) : Action StoreError Document :=
  let source := "<template for " ++ p.text ++ ">"
  recordRead (readText template (some source)) source

/-- Loads the document in a file, or starts from a template if there is no file. -/
def loadOrCreate (p : Path) (template : String) : Action StoreError Document := do
  if (← Action.tree).has p then load p
  else
    Action.record [.info ("No manifest at " ++ p.text ++ ", starting from template")]
    readTemplate p template

/-- The bytes that are stored for a document. -/
def bytes (d : Document) (style : Style) : Except StoreError ByteArray :=
  match d.render style with
  | .error e => .error (.write e)
  | .ok text => encodeAs d.encoding text

/-- Saves a document in a file. -/
def save (d : Document) (p : Path) (style : Style := {}) : Action StoreError Unit := do
  let bytes ← Action.ofExcept id (d.bytes style)
  let (tree, written) := (← Action.tree).writeWhole p bytes
  Action.setTree tree
  match written with
  | .ok () =>
    Action.record
      [.debug ("I/O: wrote XML path=" ++ p.text ++ " bytes=" ++ toString bytes.size)]
  | .error (stage, e) =>
    if stage == .replacing then
      Action.record [.error ("I/O FAIL: write XML path=" ++ p.text)]
    throw (.file e)

end Document

end Manifest
