import Manifest.Node

/-!
When two entries of a section denote the same item.

Only the fields that identify an entry are compared, so an entry with nothing but these stands for
any fuller one. An entry that lacks an identifying field is the same as no entry; only the group of
a plugin may be missing. An anchor picks the entry after which others are placed.
-/

set_option autoImplicit false

namespace Manifest

/-- The grounds on which an existing entry and a candidate count as the same. -/
inductive Identity where
  /-- Group and artifact are equal. -/
  | dependency
  /-- Artifacts are equal, and so are groups if both entries name one. -/
  | plugin
  /-- Group and artifact are equal. -/
  | embedded
  /-- Profile identifiers are equal. -/
  | profile
  /-- Names are equal, whatever the value. -/
  | property
  /-- Module paths are equal. -/
  | module
  /-- The artifact of the existing entry is listed, whatever the candidate is. -/
  | artifactIn (artifacts : List String)
  deriving Repr, DecidableEq

/-- Whether two optional values are both there and equal. -/
def sameField (a b : Option String) : Bool :=
  a.isSome && a == b

/-- Whether two entries have the same group and the same artifact. -/
def sameCoordinates (a b : Element) : Bool :=
  sameField (a.childText? "groupId") (b.childText? "groupId") &&
    sameField (a.childText? "artifactId") (b.childText? "artifactId")

/-- Whether two plugins are the same: a group that is not named could be any. -/
def samePlugin (a b : Element) : Bool :=
  sameField (a.childText? "artifactId") (b.childText? "artifactId") &&
    match a.childText? "groupId", b.childText? "groupId" with
    | some left, some right => left == right
    | _, _ => true

/-- Whether an existing entry and a candidate denote the same item. -/
def Identity.same : Identity → Element → Element → Bool
  | .dependency, existing, candidate | .embedded, existing, candidate =>
    sameCoordinates existing candidate
  | .plugin, existing, candidate => samePlugin existing candidate
  | .profile, existing, candidate => sameField (existing.childText? "id") (candidate.childText? "id")
  | .property, existing, candidate => !existing.name.isEmpty && existing.name == candidate.name
  | .module, existing, candidate =>
    let path := Text.strip existing.text
    !path.isEmpty && path == Text.strip candidate.text
  | .artifactIn artifacts, existing, _ => (existing.childText? "artifactId").any artifacts.contains

/-- The coordinates of the entry after which others are placed. -/
structure Anchor where
  group : Option String := none
  artifact : Option String := none
  deriving Repr, DecidableEq

/--
Whether an entry has the coordinates of an anchor. A coordinate that the anchor does not name is not
looked at, but an anchor that names none is no entry's.
-/
def Anchor.holds (a : Anchor) (e : Element) : Bool :=
  (a.group.isSome || a.artifact.isSome) &&
    (a.group.isNone || e.childText? "groupId" == a.group) &&
      (a.artifact.isNone || e.childText? "artifactId" == a.artifact)

end Manifest
