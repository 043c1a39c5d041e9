import Manifest.FileTree
import Manifest.Logging.Logger
import Manifest.Text.Encoding

/-!
What a record brings about in the files.

The file of a handler is opened when the handler is made or, if it is set to wait, when the first
record reaches it. A record that a logger takes goes to its handlers and then to those of the
loggers above it, until one of the loggers keeps its records to itself.
-/

set_option autoImplicit false

namespace Manifest.Logging

open Yaml (Value)

/-- Why a file cannot be opened. -/
inductive OpenError where
  | file (e : FileError)
  /-- A setting is of a form that says nothing about opening files. -/
  | form
  /-- The mode, or what goes with it, makes no sense. -/
  | mode
  /-- There is no such encoding. -/
  | encoding
  deriving Repr, DecidableEq

/-- What is to become of what a file holds. -/
inductive Manner where
  | append
  | overwrite
  /-- There must be no such file. -/
  | create
  /-- There must be such a file. -/
  | read
  deriving Repr, DecidableEq

namespace Manner

/-- The letters of the manners. -/
def letters : List (Char × Manner) :=
  [('a', .append), ('w', .overwrite), ('x', .create), ('r', .read)]

/-- The manner that a mode calls for, and whether it asks for bytes. -/
def ofMode? (mode : String) : Option (Manner × Bool) :=
  let cs := mode.toList
  let known := cs.all fun c => "awxrbt+".toList.contains c && cs.count c == 1
  match letters.filter fun (c, _) => cs.contains c with
  | [(_, m)] => if known && !(cs.contains 'b' && cs.contains 't') then some (m, cs.contains 'b')
    else none
  | _ => none

end Manner

/-! ### Opening -/

/--
The place that a name leads to by its parts alone, seen from the top. A name that leads above the
top leads to no place of the tree.
-/
def placeOf (parts : List String) : Option Place :=
  parts.foldl (fun place? part => place?.bind fun place =>
    if part == FileTree.up then (if place.isEmpty then none else some place.dropLast)
    else some (place ++ [part])) (some [])

/-- Opens the file at a place. -/
def openAt (t : FileTree) (place : Place) (m : Manner) : Except FileError FileTree :=
  match t.at? place, m with
  | some .directory, _ => .error .isDirectory
  | some (.file _), .create => .error .occupied
  | some (.file _), .overwrite => t.writeFile ⟨place⟩ ByteArray.empty
  | some (.file _), _ => .ok t
  | none, .read => .error .missing
  | none, _ => t.writeFile ⟨place⟩ ByteArray.empty

/-- Whether a setting is text or nothing. -/
def isTextOrNull : Value → Bool
  | .null | .text _ => true
  | _ => false

/-- Whether an encoding can be used to write lines. -/
def isEncoding : Value → Bool
  | .text s => s == "locale" || (Text.Encoding.named? s).isSome
  | _ => true

/-- Opens a file as settings ask. It is there even if its encoding then turns out not to be. -/
def FileUse.start (u : FileUse) (t : FileTree) : FileTree × Except OpenError Unit :=
  match u.mode with
  | .text mode =>
    if !isTextOrNull u.encoding || !isTextOrNull u.errors then (t, .error .form)
    else match Manner.ofMode? mode with
      | none => (t, .error .mode)
      | some (m, bytes) =>
        if bytes && (u.encoding.isSet || u.errors.isSet) || u.name.toList.contains '\x00' then
          (t, .error .mode)
        else if u.name.startsWith "/" then (t, .error (.file .missing))
        else
          let opened : Except FileError FileTree := match placeOf (Path.ofString u.name).parts with
            | none => .ok t
            | some place => openAt t place m
          match opened with
          | .error e => (t, .error (.file e))
          | .ok t => (t, if bytes || isEncoding u.encoding then .ok () else .error .encoding)
  | _ => (t, .error .form)

/-! ### Records on their way -/

/-- Whether a record of a logger is within scopes. -/
def inScopes (scopes : List String) (logger : String) : Bool :=
  scopes.all fun s => s.isEmpty || s == logger || (s ++ ".").isPrefixOf logger

/-- Where records go: the files, and the handlers that have opened theirs, by their numbers. -/
structure Outlets where
  tree : FileTree := {}
  opened : List Nat := []
  deriving Inhabited

/-- Opens the file of a handler unless it is open. -/
def Pending.start (p : Pending) (o : Outlets) : Outlets × Except OpenError Unit :=
  if o.opened.contains p.number then (o, .ok ())
  else match p.use.start o.tree with
    | (tree, .ok ()) => ({ tree, opened := p.number :: o.opened }, .ok ())
    | (tree, .error e) => ({ o with tree }, .error e)

/-- What a handler does with a record of a logger. -/
def Handler.take (h : Handler) (logger : String) (l : Level) (o : Outlets) :
    Outlets × Except OpenError Unit :=
  if h.threshold.value ≤ severity l && inScopes h.scopes logger then
    match h.pending with
    | none => (o, .ok ())
    | some p =>
      let (o, started) := p.start o
      (o, if h.kind.rotates then .ok () else started)
  else (o, .ok ())

/-- What handlers do with a record, one after the other. -/
def takeAll (logger : String) (l : Level) : List Handler → Outlets → Outlets × Except OpenError Unit
  | [], o => (o, .ok ())
  | h :: hs, o =>
    match h.take logger l o with
    | (o, .ok ()) => takeAll logger l hs o
    | failed => failed

namespace Loggers

/-- The handlers that a record reaches from a list of loggers, nearest first. -/
def handlersAlong (ls : Loggers) : List Name → List Handler
  | [] => []
  | n :: ns =>
    let l := ls.get n
    l.handlers ++ if l.propagates then ls.handlersAlong ns else []

/-- The threshold that holds for a logger: the first one set, going up. -/
def thresholdAlong (ls : Loggers) (ns : List Name) : Int :=
  ((ns.map fun n => (ls.get n).threshold.value).find? (· != 0)).getD 0

/-- What a record of a logger brings about. -/
def emit (ls : Loggers) (n : Name) (level : Level) (o : Outlets) :
    Outlets × Except OpenError Unit :=
  let l := ls.get n
  let way := n :: n.above
  if !l.silent && ls.thresholdAlong way ≤ severity level && inScopes l.scopes n.text then
    takeAll n.text level (ls.handlersAlong way) o
  else (o, .ok ())

end Loggers

end Manifest.Logging
