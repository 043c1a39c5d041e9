import Manifest.Logging.Plan
import Manifest.Settings
import Manifest.Text.Blank

/-!
Setting up logging.

The plan in the settings is carried out. If it makes no sense that is reported, and records then go
to the console alone. Whatever became of the plan, the loggers that the environment asks for are
followed closely in the end.
-/

set_option autoImplicit false

namespace Manifest.Logging

open Yaml (Value Entries)

/-- What the environment says about logging. -/
structure Environment where
  /-- The directory of the log file. -/
  directory : Option String := none
  /-- Whether merging is followed closely. -/
  debugMerge : Option String := none
  /-- The loggers that are followed closely. -/
  debugModules : Option String := none
  deriving Repr, Inhabited

namespace Environment

/-- The words that stand for yes. -/
def affirmatives : List String := ["1", "true", "yes", "on"]

/-- The parts of a text between commas. -/
def splitCommas : List Char → List (List Char)
  | [] => [[]]
  | c :: cs =>
    if c == ',' then [] :: splitCommas cs
    else match splitCommas cs with
      | [] => [[c]]
      | part :: parts => (c :: part) :: parts

/-- The names in a text, with nothing around them. -/
def namesIn (s : String) : List String :=
  ((splitCommas s.toList).map fun part => String.ofList (Text.stripList part)).filter (!·.isEmpty)

/-- Whether the environment asks for merging to be followed closely. -/
def followsMerge (e : Environment) : Bool :=
  affirmatives.contains (Text.lowerAscii (Text.strip (e.debugMerge.getD "")))

/-- The loggers that the environment asks to follow closely, in the order in which it does. -/
def followed (e : Environment) : List Name :=
  (if e.followsMerge then [.merging] else []) ++
    (namesIn (e.debugModules.getD "")).map Name.ofText

/-- The directory of the log file. -/
def logDirectory (e : Environment) : String :=
  e.directory.getD "logs"

/-- The log file. -/
def logFile (e : Environment) : String :=
  let d := e.logDirectory
  if d.isEmpty || d.endsWith "/" then d ++ "pom_toolkit.log" else d ++ "/pom_toolkit.log"

end Environment

/-- What came of setting up logging. -/
structure Outcome where
  /-- Whether it was reported that the settings make no sense. -/
  reported : Bool
  /-- The loggers as they are then. -/
  result : Except OpenError Loggers

/-- Whether a text is somewhere in another one. -/
def occursIn (part : List Char) : List Char → Bool
  | [] => part.isEmpty
  | c :: cs => part.isPrefixOf (c :: cs) || occursIn part cs

/-- The name of the handler that writes the log file. -/
def fileHandler : String := "file"

/-- A plan in which the handler of the log file, if it has one, writes the log file. -/
def withLogFile (plan : Entries) (logFile : String) : Except PlanError Entries :=
  match plan.get? "handlers" with
  | none => .ok plan
  | some (.table handlers) =>
    match Entries.get? handlers fileHandler with
    | none => .ok plan
    | some (.table settings) =>
      let settings := Entries.put settings (.text "filename") (.text logFile)
      let handlers := Entries.put handlers (.text fileHandler) (.table settings)
      .ok (plan.put (.text "handlers") (.table handlers))
    | some _ => .error .form
  | some (.text s) => if occursIn fileHandler.toList s.toList then .error .form else .ok plan
  | some (.list items) | some (.set items) =>
    if items.any (·.sameKey (.text fileHandler)) then .error .form else .ok plan
  | some _ => .error .form

/-- The loggers when records go to the console alone. -/
def minimal (ls : Loggers) : Loggers :=
  let root := ls.get .root
  let console : Handler := { kind := .stream, threshold := .ofLevel .info }
  (Plan.settleStanding [] false ls).put .root
    { root with threshold := .ofLevel .info, handlers := [console] }

/-- How carrying out a plan ended. -/
inductive Ending where
  /-- It was carried out. -/
  | done
  /-- It makes no sense. -/
  | refused
  /-- The first record could not be written, for want of an encoding. -/
  | failed (e : OpenError)

/-- Carries out a plan and writes the first record. -/
def carryOut (plan : Entries) (logFile : String) (a : Arrangement) : Arrangement × Ending :=
  match withLogFile plan logFile with
  | .error _ => (a, .refused)
  | .ok plan =>
    match (Plan.arrange plan).run a with
    | (.error _, a) => (a, .refused)
    | (.ok (), a) =>
      match a.loggers.emit .program .info a.toOutlets with
      | (o, .ok ()) => ({ a with toOutlets := o }, .done)
      | (o, .error .encoding) => ({ a with toOutlets := o }, .failed .encoding)
      | (o, .error _) => ({ a with toOutlets := o }, .refused)

/--
Follows loggers closely, one after the other, and says so in a record of each. A record that cannot be
written ends it, and the loggers behind it stay as they are.
-/
def followAndTell (a : Arrangement) : List Name → Arrangement × Except OpenError Unit
  | [] => (a, .ok ())
  | n :: ns =>
    let loggers := a.loggers.follow n
    match loggers.emit n .info a.toOutlets with
    | (o, .ok ()) => followAndTell { toOutlets := o, loggers } ns
    | (o, .error e) => ({ toOutlets := o, loggers }, .error e)

/-- Follows closely the loggers that the environment asks for. -/
def Environment.follow (e : Environment) (a : Arrangement) : Arrangement × Except OpenError Unit :=
  followAndTell a e.followed

/-- Carries out the plan of the settings, or does without it. -/
def start (e : Environment) (plan : Entries) (a : Arrangement) : Arrangement × Ending :=
  if (Plan.valueOf plan "version").isTrue then carryOut plan e.logFile a
  else ({ a with loggers := minimal a.loggers }, .done)

/-- Sets up logging, beginning with loggers that nobody has changed. -/
def setUp (e : Environment) (s : Settings) (t : FileTree) : FileTree × Outcome :=
  let made := if e.logDirectory.isEmpty then (t, .error .missing)
    else t.makeDirectories (Path.ofString e.logDirectory)
  match made with
  | (t, .error f) => (t, ⟨false, .error (.file f)⟩)
  | (t, .ok ()) =>
    let (a, ending) := start e s.logging { tree := t }
    match ending with
    | .failed f => (a.tree, ⟨false, .error f⟩)
    | .done =>
      let (a, told) := e.follow a
      (a.tree, ⟨false, told.map fun _ => a.loggers⟩)
    | .refused =>
      let (a, told) := e.follow { a with loggers := minimal a.loggers }
      (a.tree, ⟨true, told.map fun _ => a.loggers⟩)

end Manifest.Logging
