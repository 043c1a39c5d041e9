import Manifest.Document.Write
import Manifest.Text.Encoding
import Manifest.Text.LineEnd
import Manifest.World
import Manifest.Yaml.Value

/-!
Settings: how documents are written and how records are logged.

Each kind of settings has values of its own, over which those of a file in the user's settings
directory are laid. A file that is no settings text is reported and left out of account.
-/

set_option autoImplicit false

namespace Manifest

open Yaml (Value Entries)

/-- The settings of logging that hold unless a file says otherwise. -/
def loggingText : String :=
"version: 1
disable_existing_loggers: false

formatters:
  simple:
    format: \"%(asctime)s - %(name)s - %(levelname)s - %(message)s\"
  detailed:
    format: \"%(asctime)s - %(name)s - %(levelname)s - %(module)s:%(lineno)d - %(message)s\"

handlers:
  console:
    class: logging.StreamHandler
    formatter: simple
    level: INFO
  file:
    class: logging.handlers.RotatingFileHandler
    formatter: detailed
    level: DEBUG
    filename: pom_toolkit.log
    maxBytes: 1048576
    backupCount: 3
    encoding: utf-8

loggers:
  pom_toolkit:
    level: DEBUG
    handlers: [console, file]
    propagate: false

root:
  level: WARNING
  handlers: [console]
"

/-- The settings of writing that hold unless a file says otherwise. -/
def serializationText : String :=
"# Output formatting applied when a manifest is written back to disk.
indent: \"  \"
xml_declaration: true
normalize_leaves: true
"

/-- The values that settings of writing have where no text gives any. -/
def serializationBasis : Entries :=
  [(.text "indent", .text "  "), (.text "xml_declaration", .bool true),
   (.text "normalize_leaves", .bool true)]

/-- Kinds of settings. -/
inductive Topic where
  | logging
  | serialization
  deriving Repr, DecidableEq

namespace Topic

/-- The kinds in the order in which they are read. -/
def all : List Topic := [.logging, .serialization]

/-- The name of a kind. -/
def name : Topic → String
  | .logging => "logging"
  | .serialization => "serialization"

/-- The file of a kind. -/
def fileName (t : Topic) : String :=
  t.name ++ ".yml"

/-- The text that holds unless a file says otherwise. -/
def defaultText : Topic → String
  | .logging => loggingText
  | .serialization => serializationText

end Topic

/-- Why settings cannot be used at all. -/
inductive SettingsError where
  /-- The bytes of a file are not text. -/
  | notText
  /-- A value in a file cannot be made sense of. -/
  | value (f : Yaml.Fault)
  /-- A file holds text, or a list of something else than pairs. -/
  | notPairs
  /-- A file holds a single value, or a pair whose first part names nothing. -/
  | notEntries
  deriving Repr, DecidableEq

/-- The pair that an item of a list stands for. -/
def pairOf (item : Value) : Except SettingsError (Value × Value) :=
  match item with
  | .text s =>
    match s.toList with
    | [key, value] => .ok (.text key.toString, .text value.toString)
    | _ => .error .notPairs
  | .list [key, value] => if key.isKey then .ok (key, value) else .error .notEntries
  | .list _ => .error .notPairs
  | .set [key, value] => .ok (key, value)
  | .set _ => .error .notPairs
  | .bytes [key, value] => .ok (.int key.toNat, .int value.toNat)
  | .bytes _ => .error .notPairs
  | .table [(key, _), (value, _)] => .ok (key, value)
  | .table _ => .error .notPairs
  | _ => .error .notEntries

/-- What an item of a list is: itself, or the list if that is what the item stands for. -/
def itemIn (items : List Value) (item : Value) : Value :=
  match item with
  | .around _ => .list items
  | item => item

/-- The entries that a settings text stands for. Whatever counts as false stands for none. -/
def entriesOf (v : Value) : Except SettingsError Entries :=
  if !v.isTrue then .ok []
  else match v with
    | .table entries => .ok entries
    | .list items | .set items => items.mapM fun item => pairOf (itemIn items item)
    | .text _ => .error .notPairs
    | _ => .error .notEntries

/-- The settings of a kind that hold unless a file says otherwise. -/
def Topic.defaults (t : Topic) : Entries :=
  match Yaml.read t.defaultText with
  | .ok (.table entries) => entries
  | _ => []

/-- All settings. -/
structure Settings where
  logging : Entries := []
  serialization : Entries := []
  deriving Inhabited

namespace Settings

/-- Where settings are looked for: the directory that is set, else one in the home directory. -/
def directory (given environment : Option String) (home : Path) : Path :=
  match given.filter (!·.isEmpty), environment.filter (!·.isEmpty) with
  | some d, _ => Path.ofString d
  | none, some d => Path.ofString d
  | none, none => home.child ".pom_toolkit"

/-- Writes the text of a kind into its file, unless there is one. -/
def seedTopic (directory : Path) (t : Topic) : Action SettingsError Unit := do
  let p := directory.child t.fileName
  let tree ← Action.tree
  if !tree.has p then
    match tree.writeFile p t.defaultText.toUTF8 with
    | .ok tree =>
      Action.setTree tree
      Action.record [.info ("Created user config: " ++ p.text)]
    | .error _ =>
      Action.record [.warning ("Could not copy default config " ++ t.fileName ++ ": ...")]

/-- Writes the texts of all kinds into their files, unless they are there. -/
def seed (directory : Path) : Action SettingsError Unit := do
  let (tree, made) := (← Action.tree).makeDirectories directory
  Action.setTree tree
  match made with
  | .error _ =>
    Action.record
      [.error ("Could not create user config directory " ++ directory.text ++ ": ...")]
  | .ok () => Topic.all.forM (seedTopic directory)

/-- What the file at a path says; nothing if it cannot be read or is no settings text. -/
def readFile (tree : FileTree) (p : Path) : Except SettingsError (Option Entries) :=
  match tree.read p with
  | .error _ => .ok none
  | .ok bytes =>
    match Text.Encoding.utf8.decode bytes with
    | none => .error .notText
    | some text =>
      match Yaml.read (String.ofList (Text.unifyLineEnds text.toList)) with
      | .error .malformed => .ok none
      | .error f => .error (.value f)
      | .ok v => (entriesOf v).map some

/-- The settings of a kind, and how they came about. -/
def loadTopic (directory : Path) (t : Topic) : Action SettingsError (Entries × String) := do
  let p := directory.child t.fileName
  let tree ← Action.tree
  if !tree.has p then return (t.defaults, "loaded")
  else
    match ← Action.ofExcept id (readFile tree p) with
    | some entries => return (t.defaults.overlay entries, "loaded+overrides")
    | none =>
      Action.record [.error ("Could not parse user config " ++ p.text ++ ": ...")]
      return (t.defaults, "loaded")

/-- Reads all settings. -/
def load (directory : Path) (seeding : Bool := false) : Action SettingsError Settings := do
  if seeding then seed directory
  let (logging, loggingStatus) ← loadTopic directory .logging
  let (serialization, serializationStatus) ← loadTopic directory .serialization
  Action.record [.info ("Config startup: logging: " ++ loggingStatus ++ " | serialization: " ++
    serializationStatus)]
  return { logging, serialization := serializationBasis.overlay serialization }

/-- The indentation that a setting stands for. -/
def indentOf : Value → Indent
  | .null => .keep
  | .text s => .unit s
  | _ => .invalid

/-- A setting of writing. -/
def get (s : Settings) (key : String) : Value :=
  (s.serialization.get? key).getD .null

/-- How documents are laid out. -/
def style (s : Settings) : Style :=
  { indent := indentOf (s.get "indent"), declaration := (s.get "xml_declaration").isTrue }

/-- Whether leaves are put on one line before a document is written. -/
def collapsesLeaves (s : Settings) : Bool :=
  (s.get "normalize_leaves").isTrue

end Settings

end Manifest
