import Manifest.Merge

/-!
Where elements go when the entries of a section change.

A shift says which entries of a section were removed or where new ones came in. `Shift.follow` gives
the position that an element has afterwards, if it is still in the tree.
-/

set_option autoImplicit false

namespace Manifest

/-- A change of the entries of one section. -/
inductive Shift where
  /-- Some entries came in, the first of them at a rank. -/
  | inserted (owner : Position) (rank count : Nat)
  /-- The entries of some ranks were removed. -/
  | removed (owner : Position) (ranks : List Nat)
  /-- All that was inside an element was removed. -/
  | cleared (owner : Position)
  deriving Repr, DecidableEq

/-- The way from an element to a position below it or at it. -/
def wayFrom? : Position → Position → Option Position
  | [], position => some position
  | rank :: owner, rank' :: position => if rank == rank' then wayFrom? owner position else none
  | _ :: _, [] => none

/-- The rank of an entry after others were removed, unless it is one of them. -/
def rankWithout (ranks : List Nat) (rank : Nat) : Option Nat :=
  if ranks.contains rank then none else some (rank - ranks.countP (· < rank))

/-- The position of an element after a change. -/
def Shift.follow (s : Shift) (position : Position) : Option Position :=
  match s with
  | .inserted owner first count =>
    match wayFrom? owner position with
    | some (rank :: rest) => some (owner ++ (if rank < first then rank else rank + count) :: rest)
    | _ => some position
  | .removed owner ranks =>
    match wayFrom? owner position with
    | some (rank :: rest) => (rankWithout ranks rank).map fun rank => owner ++ rank :: rest
    | _ => some position
  | .cleared owner =>
    match wayFrom? owner position with
    | some (_ :: _) => none
    | _ => some position

/-- The position of an element after several changes. -/
def followAll (shifts : List Shift) (position : Position) : Option Position :=
  shifts.foldl (fun p s => p.bind s.follow) (some position)

/-- The rank of the first of the entries that are added to some nodes. -/
def additionRank (anchor : Option (Element → Bool)) (nodes : List Node) : Nat :=
  let index := (anchor.bind (afterAnchor? · nodes)).getD (endPosition nodes)
  (elementsOf (nodes.take index)).length

/-- The ranks of the elements that satisfy a condition. -/
def ranksOf (p : Element → Bool) (nodes : List Node) : List Nat :=
  ((elementsOf nodes).zipIdx.filter fun (e, _) => p e).map (·.2)

/-- The changes that adding some entries makes. -/
def additionShift (owner : Position) (anchor : Option (Element → Bool)) (nodes : List Node)
    (count : Nat) : Shift :=
  .inserted owner (additionRank anchor nodes) count

/-- The changes that a refresh makes, given the children before it and how many entries it added. -/
def Renewal.shifts (r : Renewal) (owner : Position) (nodes : List Node) (count : Nat) :
    List Shift :=
  let left := (removeFrom r.unwanted "" [] nodes).children
  [.removed owner (ranksOf r.unwanted nodes), additionShift owner r.anchor left count]

/-- The positions of entries that came in at a rank. -/
def insertedPositions (owner : Position) (rank count : Nat) : List Position :=
  (List.range count).map fun i => owner ++ [rank + i]

/-- An entry that was put into a document: where it is, or what it was when it went. -/
inductive Held where
  | present (position : Position)
  | gone (e : Element)

namespace Held

/-- The entry after some changes, given the document before them. -/
def follow (before : Document) (shifts : List Shift) : Held → Option Held
  | .gone e => some (.gone e)
  | .present position =>
    match followAll shifts position with
    | some position => some (.present position)
    | none => (before.at? position).map .gone

/-- The entry as it stands in a document. -/
def look (d : Document) : Held → Option Element
  | .gone e => some e
  | .present position => d.at? position

end Held

end Manifest
