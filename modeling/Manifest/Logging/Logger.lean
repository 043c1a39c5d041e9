import Manifest.Logging.Threshold

/-!
Loggers and their handlers.

Every name has a logger; one that nobody has changed leaves all to the loggers above it. To follow
a logger closely is to set its threshold for records that only help to find faults, and to see to
it that one of its own handlers lets them through.
-/

set_option autoImplicit false

namespace Manifest.Logging

open Yaml (Value)

/-- What a handler does with the records that it takes. -/
inductive Kind where
  /-- Writes them to a stream of the process. -/
  | stream
  /-- Drops them. -/
  | null
  /-- Writes them to a file. -/
  | file
  /-- Writes them to a file that is put aside when it has grown. -/
  | rotating
  /-- Writes them to a file that is put aside after some time. -/
  | timed
  /-- Writes them to a file that others may put aside. -/
  | watched
  /-- Keeps them. -/
  | buffering
  /-- Keeps them for another handler. -/
  | memory
  deriving Repr, DecidableEq

namespace Kind

/-- All kinds. -/
def all : List Kind :=
  [stream, null, file, rotating, timed, watched, buffering, memory]

/-- The name under which a kind is shown. -/
def name : Kind → String
  | stream => "StreamHandler"
  | null => "NullHandler"
  | file => "FileHandler"
  | rotating => "RotatingFileHandler"
  | timed => "TimedRotatingFileHandler"
  | watched => "WatchedFileHandler"
  | buffering => "BufferingHandler"
  | memory => "MemoryHandler"

/-- The name by which settings call for a kind. -/
def fullName (k : Kind) : String :=
  if k == stream || k == null || k == file then "logging." ++ k.name
  else "logging.handlers." ++ k.name

/-- The kind that a name in settings calls for. -/
def named? (name : String) : Option Kind :=
  all.find? fun k => k.fullName == name

/-- Whether records go to a file that the handler may put aside. -/
def rotates (k : Kind) : Bool :=
  k == rotating || k == timed

/-- Whether records go to a file. -/
def writesFile (k : Kind) : Bool :=
  k == file || k == watched || k.rotates

theorem named?_fullName (k : Kind) : named? k.fullName = some k := by
  cases k <;> decide

end Kind

/-- A file as settings describe it: its name and how it is to be opened. -/
structure FileUse where
  name : String
  mode : Value := .text "a"
  encoding : Value := .null
  errors : Value := .null

/-- A file that is opened when the first record comes. -/
structure Pending where
  /-- The number by which its handler is known: loggers that share the handler share the file. -/
  number : Nat
  use : FileUse

/-- A handler. -/
structure Handler where
  kind : Kind
  threshold : Threshold := .unset
  /-- The loggers to all of which a record must belong for it to be taken. -/
  scopes : List String := []
  /-- The file that it opens when the first record comes. -/
  pending : Option Pending := none

/-- A logger. -/
structure Logger where
  threshold : Threshold := .unset
  /-- Whether its records go to the handlers of the loggers above it too. -/
  propagates : Bool := true
  handlers : List Handler := []
  /-- The loggers to all of which a record must belong for it to be taken. -/
  scopes : List String := []
  /-- Whether it drops all its records. -/
  silent : Bool := false
  deriving Inhabited

/-- The name of a logger: the one at the top has none of its own. -/
inductive Name where
  | root
  | below (text : String)
  deriving Repr, DecidableEq, Inhabited

namespace Name

/-- The name of the logger at the top. -/
def rootText : String := "root"

/-- The logger that a text names. -/
def ofText (s : String) : Name :=
  if s.isEmpty || s == rootText then .root else .below s

/-- A name as text. -/
def text : Name → String
  | .root => rootText
  | .below s => s

/-- The logger of the whole program. -/
def program : Name := .below "pom_toolkit"

/-- The logger of merging. -/
def merging : Name := .below "pom_toolkit.core.merge"

/-- The names above a name, nearest first: what stands before each of its points. -/
def above : Name → List Name
  | .root => []
  | .below s =>
    let cs := s.toList
    let places := (List.range cs.length).filter fun i => 0 < i && cs[i]? == some '.'
    places.reverse.map (fun i => .below (String.ofList (cs.take i))) ++ [.root]

end Name

/-- The loggers by their names. -/
structure Loggers where
  root : Logger := { threshold := .ofLevel .warning }
  others : List (String × Logger) := []
  deriving Inhabited

namespace Loggers

/-- The logger of a name. -/
def get (ls : Loggers) : Name → Logger
  | .root => ls.root
  | .below s => (ls.others.lookup s).getD {}

/-- The loggers with another one under a name. -/
def put (ls : Loggers) (n : Name) (l : Logger) : Loggers :=
  match n with
  | .root => { ls with root := l }
  | .below s => { ls with others := (s, l) :: ls.others }

/-- The loggers with the one of a name changed. -/
def modify (ls : Loggers) (n : Name) (f : Logger → Logger) : Loggers :=
  ls.put n (f (ls.get n))

@[simp] theorem get_put_self (ls : Loggers) (n : Name) (l : Logger) : (ls.put n l).get n = l := by
  cases n <;> simp [put, get]

theorem get_put_of_ne (ls : Loggers) {n m : Name} (l : Logger) (h : m ≠ n) :
    (ls.put n l).get m = ls.get m := by
  cases n with
  | root =>
    cases m with
    | root => exact absurd rfl h
    | below t => rfl
  | below s =>
    cases m with
    | root => rfl
    | below t =>
      have hne : (t == s) = false := by simpa using h
      simp [put, get, List.lookup_cons, hne]

end Loggers

/-! ### Following a logger closely -/

/-- Whether a handler lets records through that only help to find faults. -/
def Handler.takesDebug (h : Handler) : Bool :=
  decide (h.threshold.value ≤ severity .debug)

/-- The handler of a logger that is followed closely. -/
def Handler.debug : Handler :=
  { kind := .stream, threshold := .ofLevel .debug }

/-- A logger that lets through all that helps to find faults. -/
def Logger.followed (l : Logger) : Logger :=
  { l with
    threshold := .ofLevel .debug
    handlers := if l.handlers.any Handler.takesDebug then l.handlers else l.handlers ++ [.debug] }

/-- The loggers with one of them followed closely. -/
def Loggers.follow (ls : Loggers) (n : Name) : Loggers :=
  ls.modify n Logger.followed

/-- The loggers with some of them followed closely, one after the other. -/
def Loggers.followAll (ls : Loggers) (names : List Name) : Loggers :=
  names.foldl Loggers.follow ls

/-- A logger that is followed lets something through by a handler of its own. -/
theorem Logger.any_takesDebug_followed (l : Logger) :
    l.followed.handlers.any Handler.takesDebug = true := by
  unfold Logger.followed
  split
  · assumption
  · simp [Handler.debug, Handler.takesDebug]

/-- A logger that is as a followed one should be stays as it is. -/
theorem Logger.followed_eq_self {l : Logger} (ht : l.threshold = .ofLevel .debug)
    (hh : l.handlers.any Handler.takesDebug = true) : l.followed = l := by
  cases l
  simp_all [Logger.followed]

/-- To follow a logger again changes nothing. -/
theorem Logger.followed_followed (l : Logger) : l.followed.followed = l.followed :=
  Logger.followed_eq_self rfl l.any_takesDebug_followed

end Manifest.Logging
