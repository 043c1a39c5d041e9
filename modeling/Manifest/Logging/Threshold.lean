import Manifest.Log
import Manifest.Yaml.Value

/-!
Thresholds: how much a record must matter for a logger or a handler to take it.

A threshold is a number. Some numbers have names, by which settings may call them; a truth value
stands for one or nought, and keeps its own spelling when it is shown.
-/

set_option autoImplicit false

namespace Manifest.Logging

open Yaml (Value)

/-- How much a record must matter to be taken. -/
inductive Threshold where
  | number (n : Int)
  | flag (b : Bool)
  deriving Repr, DecidableEq

instance : Inhabited Threshold := ⟨.number 0⟩

/-- How much a record of a level matters. -/
def severity : Level → Int
  | .debug => 10
  | .info => 20
  | .warning => 30
  | .error => 40

namespace Threshold

/-- The number that a threshold stands for. -/
def value : Threshold → Int
  | .number n => n
  | .flag b => if b then 1 else 0

/-- The threshold that a record of a level just passes. -/
def ofLevel (l : Level) : Threshold :=
  .number (severity l)

/-- The threshold of what leaves the decision to others. -/
def unset : Threshold :=
  .number 0

/-- The names of thresholds. Where two stand for one number, the first is shown. -/
def names : List (String × Int) :=
  [("CRITICAL", 50), ("FATAL", 50), ("ERROR", 40), ("WARNING", 30), ("WARN", 30), ("INFO", 20),
   ("DEBUG", 10), ("NOTSET", 0)]

/-- The threshold that a value of settings calls for. -/
def ofValue? : Value → Option Threshold
  | .int n => some (.number n)
  | .bool b => some (.flag b)
  | .text s => (names.lookup s).map .number
  | _ => none

/-- The threshold as text: a name where there is one. -/
def name (t : Threshold) : String :=
  match names.find? fun (_, n) => n == t.value with
  | some (text, _) => text
  | none =>
    match t with
    | .number n => "Level " ++ toString n
    | .flag b => "Level " ++ (if b then "True" else "False")

@[simp] theorem value_ofLevel (l : Level) : (ofLevel l).value = severity l := rfl

/-- The level by name is the level by number. -/
example : (names.map fun (text, _) => ((ofValue? (.text text)).map name)) =
    ["CRITICAL", "CRITICAL", "ERROR", "WARNING", "WARNING", "INFO", "DEBUG", "NOTSET"].map some := by
  decide

end Threshold

end Manifest.Logging
