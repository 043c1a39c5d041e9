import Manifest.Path

/-!
A tree of files and directories.

A place is the list of names from the top; a path leads to a place through directories that must be
there, and may go up on the way. `writeWhole` puts the content of a file in place in one go: it is
written beside the file first and then takes its name, and when that fails nothing of it is left.
-/

set_option autoImplicit false

namespace Manifest

/-- What is at a place. -/
inductive Entry where
  | file (bytes : ByteArray)
  | directory
  deriving Inhabited

/-- The names from the top of a tree to a place in it. -/
abbrev Place := List String

/-- Why a tree refuses an operation. -/
inductive FileError where
  /-- There is nothing at the place, or no directory on the way to it. -/
  | missing
  | isDirectory
  /-- What should be a directory on the way is a file. -/
  | notDirectory
  /-- A directory cannot be made where a file is. -/
  | occupied
  /-- A directory cannot be replaced while it serves as the end of the path itself. -/
  | busy
  deriving Repr, DecidableEq

/-- Files and directories by their places. The top itself is always a directory. -/
structure FileTree where
  entries : List (Place × Entry) := []
  deriving Inhabited

namespace FileTree

/-- What is at a place. -/
def at? (t : FileTree) (place : Place) : Option Entry :=
  if place.isEmpty then some .directory else t.entries.lookup place

/-- The tree with something else at a place. -/
def put (t : FileTree) (place : Place) (e : Entry) : FileTree :=
  if (t.entries.lookup place).isSome then
    ⟨t.entries.map fun (p, old) => (p, if p == place then e else old)⟩
  else ⟨t.entries ++ [(place, e)]⟩

/-- The tree with nothing at a place. -/
def erase (t : FileTree) (place : Place) : FileTree :=
  ⟨t.entries.filter fun (p, _) => p != place⟩

/-- The part of a path that goes up. -/
def up : String := ".."

/-- The place that parts lead to from another one, through directories. -/
def walk (t : FileTree) (from' : Place) : List String → Except FileError Place
  | [] => .ok from'
  | part :: rest =>
    match t.at? from' with
    | none => .error .missing
    | some (.file _) => .error .notDirectory
    | some .directory => t.walk (if part == up then from'.dropLast else from' ++ [part]) rest

/-- The place that a path leads to. -/
def locate (t : FileTree) (p : Path) : Except FileError Place :=
  t.walk [] p.parts

/-- Whether there is anything at a path. -/
def has (t : FileTree) (p : Path) : Bool :=
  match t.locate p with
  | .ok place => (t.at? place).isSome
  | .error _ => false

/-- Whether there is a directory at a path. -/
def hasDirectory (t : FileTree) (p : Path) : Bool :=
  match t.locate p with
  | .ok place =>
    match t.at? place with
    | some .directory => true
    | _ => false
  | .error _ => false

/-- The content of the file at a path. -/
def read (t : FileTree) (p : Path) : Except FileError ByteArray := do
  match t.at? (← t.locate p) with
  | none => .error .missing
  | some .directory => .error .isDirectory
  | some (.file bytes) => .ok bytes

/-- The place at which a path ends, unless it ends by going up or nowhere. -/
def ending (t : FileTree) (p : Path) : Except FileError (Option Place) := do
  let parent ← t.locate p.parent
  match t.at? parent with
  | none => .error .missing
  | some (.file _) => .error .notDirectory
  | some .directory =>
    match p.parts.getLast? with
    | none => .ok none
    | some name => .ok (if name == up then none else some (parent ++ [name]))

/-- Makes a single directory. -/
def makeDirectory (t : FileTree) (p : Path) : Except FileError FileTree := do
  match ← t.ending p with
  | none => .error .occupied
  | some place =>
    match t.at? place with
    | some _ => .error .occupied
    | none => .ok (t.put place .directory)

/-- A directory that could not be made is no fault if it is there. -/
def unlessThere (t : FileTree) (p : Path) (e : FileError) : FileTree × Except FileError Unit :=
  if t.hasDirectory p then (t, .ok ()) else (t, .error e)

/--
Makes a directory and those that are missing on the way. What was made before a failure stays. The
parts are given last first.
-/
def makeDirectoriesFrom (t : FileTree) : List String → FileTree × Except FileError Unit
  | [] => (t, .ok ())
  | name :: above =>
    let p : Path := ⟨(name :: above).reverse⟩
    match t.makeDirectory p with
    | .ok t => (t, .ok ())
    | .error .missing =>
      match t.makeDirectoriesFrom above with
      | (t, .error e) => (t, .error e)
      | (t, .ok ()) =>
        match t.makeDirectory p with
        | .ok t => (t, .ok ())
        | .error .missing => (t, .error .missing)
        | .error e => t.unlessThere p e
    | .error e => t.unlessThere p e

/-- Makes a directory and those that are missing on the way to it. -/
def makeDirectories (t : FileTree) (p : Path) : FileTree × Except FileError Unit :=
  t.makeDirectoriesFrom p.parts.reverse

/-- A name for a file that is on its way to another name. -/
def temporaryName (name : String) (n : Nat) : String :=
  "." ++ name ++ "." ++ toString n ++ ".tmp"

/-- The first free place for a temporary file in a directory, looking at `fuel` of them. -/
def freePlace (t : FileTree) (directory : Place) (name : String) : Nat → Nat → Place
  | 0, n => directory ++ [temporaryName name n]
  | fuel + 1, n =>
    let place := directory ++ [temporaryName name n]
    if (t.at? place).isSome then t.freePlace directory name fuel (n + 1) else place

/-- Writes a new file into the directory of a path, under a name of its own. -/
def writeTemporary (t : FileTree) (p : Path) (bytes : ByteArray) :
    Except FileError (FileTree × Place) := do
  let directory ← t.locate p.parent
  match t.at? directory with
  | none => .error .missing
  | some (.file _) => .error .notDirectory
  | some .directory =>
    let place := t.freePlace directory (p.parts.getLast?.getD "") (t.entries.length + 1) 0
    .ok (t.put place (.file bytes), place)

/-- Gives the file at a place the name that a path ends with, in place of any file there. -/
def moveFile (t : FileTree) (place : Place) (p : Path) : Except FileError FileTree := do
  match ← t.ending p with
  | none => .error .busy
  | some target =>
    match t.at? target, t.at? place with
    | some .directory, _ => .error .isDirectory
    | _, some e => .ok ((t.erase place).put target e)
    | _, none => .error .missing

/-- How far the writing of a file came. -/
inductive Stage where
  /-- It could not begin. -/
  | beginning
  /-- The content could not take the name of the file. -/
  | replacing
  deriving Repr, DecidableEq

/-- Puts the content of a file in place in one go. The directories on the way are made. -/
def writeWhole (t : FileTree) (p : Path) (bytes : ByteArray) :
    FileTree × Except (Stage × FileError) Unit :=
  match t.makeDirectories p.parent with
  | (t, .error e) => (t, .error (.beginning, e))
  | (t, .ok ()) =>
    match t.writeTemporary p bytes with
    | .error e => (t, .error (.beginning, e))
    | .ok (written, place) =>
      match written.moveFile place p with
      | .ok t => (t, .ok ())
      | .error e => (written.erase place, .error (.replacing, e))

/-- Writes a file where its directory is already there. -/
def writeFile (t : FileTree) (p : Path) (bytes : ByteArray) : Except FileError FileTree := do
  match ← t.ending p with
  | none => .error .isDirectory
  | some place =>
    match t.at? place with
    | some .directory => .error .isDirectory
    | _ => .ok (t.put place (.file bytes))

/-- The files of a tree, with their paths as text. -/
def files (t : FileTree) : List (String × ByteArray) :=
  t.entries.filterMap fun (place, e) =>
    match e with
    | .file bytes => some (String.intercalate "/" place, bytes)
    | .directory => none

/-- A tree with a directory, or with a file and the directories that it is in. -/
def add (t : FileTree) (p : Path) (content : Option ByteArray) : FileTree :=
  match content with
  | none => (t.makeDirectories p).1
  | some bytes =>
    let t := (t.makeDirectories p.parent).1
    match t.writeFile p bytes with
    | .ok t => t
    | .error _ => t

end FileTree

end Manifest
