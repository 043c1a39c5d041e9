import Manifest.FileTree
import Manifest.Log

/-!
What operations on files work in: a tree of files, and the records of what they do.

An operation that fails leaves the tree and the records as they are at that point.
-/

set_option autoImplicit false

namespace Manifest

/-- The files, and what has been recorded so far. -/
structure World where
  tree : FileTree := {}
  log : List Record := []
  deriving Inhabited

/-- An operation on files that may fail. -/
abbrev Action (ε α : Type) := ExceptT ε (StateM World) α

namespace Action

variable {ε α : Type}

/-- Adds records. -/
def record (records : List Record) : Action ε Unit :=
  modify fun w => { w with log := w.log ++ records }

/-- The files. -/
def tree : Action ε FileTree :=
  return (← get).tree

/-- Puts other files in place. -/
def setTree (t : FileTree) : Action ε Unit :=
  modify fun w => { w with tree := t }

/-- A result, whose fault is stated in other terms. -/
def ofExcept {δ : Type} (state : δ → ε) : Except δ α → Action ε α
  | .ok a => pure a
  | .error e => throw (state e)

end Action

end Manifest
