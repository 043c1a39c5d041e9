/-!
Paths of files, in their normal form: the parts between slashes, without empty ones and without
those that name the place itself. A part that names the place above is kept.
-/

set_option autoImplicit false

namespace Manifest

/-- A path relative to the working directory. -/
structure Path where
  parts : List String
  deriving Repr, DecidableEq, Inhabited

namespace Path

/-- The parts of a text between slashes. -/
def splitSlashes : List Char → List (List Char)
  | [] => [[]]
  | c :: cs =>
    if c == '/' then [] :: splitSlashes cs
    else match splitSlashes cs with
      | [] => [[c]]
      | part :: parts => (c :: part) :: parts

/-- The path that a text names. -/
def ofString (s : String) : Path :=
  ⟨((splitSlashes s.toList).filter fun part => !part.isEmpty && part != ['.']).map String.ofList⟩

/-- The path as text. -/
def text (p : Path) : String :=
  if p.parts.isEmpty then "." else String.intercalate "/" p.parts

/-- The path of the directory that a path is in. -/
def parent (p : Path) : Path :=
  ⟨p.parts.dropLast⟩

/-- The path of a file in a directory. -/
def child (p : Path) (name : String) : Path :=
  ⟨p.parts ++ [name]⟩

end Path

end Manifest
