/-!
Log records: what an operation reports while it runs, apart from its result.
-/

set_option autoImplicit false

namespace Manifest

/-- How much a record matters. -/
inductive Level where
  | debug
  | info
  | warning
  | error
  deriving Repr, DecidableEq, Inhabited

/-- The name of a level in a log. -/
def Level.label : Level → String
  | .debug => "DEBUG"
  | .info => "INFO"
  | .warning => "WARNING"
  | .error => "ERROR"

/-- One line of a log. -/
structure Record where
  level : Level
  message : String
  deriving Repr, DecidableEq, Inhabited

/-- A record for the search of faults. -/
def Record.debug (message : String) : Record := ⟨.debug, message⟩

/-- A record of the ordinary course of things. -/
def Record.info (message : String) : Record := ⟨.info, message⟩

/-- A record of something that went wrong and could be put up with. -/
def Record.warning (message : String) : Record := ⟨.warning, message⟩

/-- A record of a failure. -/
def Record.error (message : String) : Record := ⟨.error, message⟩

/-- The record as a line. -/
def Record.line (r : Record) : String :=
  r.level.label ++ " " ++ r.message

end Manifest
