import Manifest.Section

/-!
Adding, removing and carrying the entries of a section.

Each operation takes the children of the section's owner and changes nothing else. What it leaves
alone keeps its order. Whether two entries are the same is for the caller to say, and so is which
entry others are placed after.

* `addMissing` adds each candidate that no entry is the same as yet, in one block;
* `removeMatching` removes the entries that some candidate is the same as, each with the white space
  right before it;
* `insertAfter` puts one entry in its place;
* `carry` takes over the entries of another section that this one lacks, each with the comments
  right above it;
* `refresh` removes and then adds.
-/

set_option autoImplicit false

namespace Manifest

/-- Whether an existing entry and a candidate are the same. -/
abbrev Match := Element → Element → Bool

/-- The children of a section after a change, the entries concerned, and what was recorded. -/
structure Change where
  children : List Node
  entries : List Element := []
  log : List Record := []

/-- An entry as it is named in a log. -/
def Element.describe (e : Element) : String :=
  match e.childText? "artifactId" with
  | some artifact => (e.childText? "groupId").getD "?" ++ ":" ++ artifact
  | none =>
    match e.childText? "id" with
    | some id => e.name ++ "#" ++ id
    | none => e.name

/-- A record of what happened to an entry of a section. -/
def entryRecord (verb : String) (e : Element) (preposition owner : String) : Record :=
  .debug (verb ++ " " ++ e.describe ++ " " ++ preposition ++ " <" ++ owner ++ ">")

/-- The index just after the last node that is not blank. -/
def endPosition (nodes : List Node) : Nat :=
  (nodes.reverse.dropWhile Node.isBlank).length

/-- The index just after the first element that an anchor picks. -/
def afterAnchor? (anchor : Element → Bool) (nodes : List Node) : Option Nat :=
  (splitAtElement anchor nodes).map fun (before, _, _) => before.length + 1

/-- A section while candidates are added: `cursor` is the index after the last one that was placed. -/
structure Addition extends Change where
  cursor : Option Nat := none

/-- Adds a candidate unless some entry is the same. -/
def Addition.add (same : Match) (anchor : Option (Element → Bool)) (owner : String) (s : Addition)
    (candidate : Element) : Addition :=
  match (elementsOf s.children).find? (same · candidate) with
  | some existing =>
    { s with log := s.log ++ [entryRecord "Keeping existing entry" existing "in" owner] }
  | none =>
    let place := s.cursor.or (anchor.bind (afterAnchor? · s.children))
    let index := place.getD (endPosition s.children)
    { children := insertNodes [candidate.toNode] index s.children
      entries := s.entries ++ [candidate]
      log := s.log ++ [entryRecord "Added entry" candidate "to" owner]
      cursor := place.map fun _ => index + 1 }

/--
Adds each candidate that no entry is the same as yet. The first goes right after the entry that the
anchor picks, the others after each other; without such an entry they go to the end.
-/
def addMissing (same : Match) (anchor : Option (Element → Bool)) (owner : String)
    (candidates : List Element) (children : List Node) : Change :=
  (candidates.foldl (Addition.add same anchor owner) { children := children }).toChange

/-- Drops white space from the front of some nodes, at most one text. -/
def dropBlank : List Node → List Node
  | [] => []
  | node :: rest => if node.isBlank then rest else node :: rest

/--
Removes unwanted entries, each with the blank text right before it. `before` are the nodes kept so
far, the last first.
-/
def removeFrom (unwanted : Element → Bool) (owner : String) (before : List Node) :
    List Node → Change
  | [] => { children := before.reverse }
  | node :: rest =>
    match node.element?.filter unwanted with
    | none => removeFrom unwanted owner (node :: before) rest
    | some e =>
      let r := removeFrom unwanted owner (dropBlank before) rest
      { r with
        entries := e :: r.entries
        log := entryRecord "Removed entry" e "from" owner :: r.log }

/-- Whether one of some matches holds between an entry and one of some candidates. -/
def isNamed (same : List Match) (candidates : List Element) (e : Element) : Bool :=
  same.any fun p => candidates.any fun c => p e c

/-- Removes every entry that one of the candidates is the same as under one of the matches. -/
def removeMatching (same : List Match) (owner : String) (candidates : List Element)
    (children : List Node) : Change :=
  removeFrom (isNamed same candidates) owner [] children

/-- Puts an entry right after the one that an anchor picks, or at the end. -/
def insertAfter (anchor : Element → Bool) (owner : String) (entry : Element)
    (children : List Node) : Change :=
  let index := (afterAnchor? anchor children).getD (endPosition children)
  { children := insertNodes [entry.toNode] index children
    entries := [entry]
    log := [entryRecord "Inserted entry" entry "into" owner] }

/-- Whether a node is a comment. -/
def Node.isComment : Node → Bool
  | .comment _ => true
  | _ => false

/-- The comments at the end of some nodes, with nothing but white space between and after them. -/
def leadingComments (before : List Node) : List Node :=
  ((before.reverse.takeWhile fun node => node.isComment || node.isBlank).filter
    Node.isComment).reverse

/-- Carries an entry over, with the comments above it, unless some entry is the same. -/
def Change.carry (same : Match) (owner : String) (s : Change) (before : List Node)
    (entry : Element) : Change :=
  if (elementsOf s.children).any (same · entry) then s
  else
    { children :=
        insertNodes (leadingComments before ++ [entry.toNode]) (endPosition s.children) s.children
      entries := s.entries ++ [entry]
      log := s.log ++ [entryRecord "Carried entry" entry "into" owner] }

/-- The nodes before the element of a given rank, and that element. -/
def splitAtRank : Nat → List Node → Option (List Node × Element)
  | _, [] => none
  | rank, node :: rest =>
    match node.element?, rank with
    | some e, 0 => some ([], e)
    | some _, rank + 1 => (splitAtRank rank rest).map fun (before, e) => (node :: before, e)
    | none, rank => (splitAtRank rank rest).map fun (before, e) => (node :: before, e)

/-- Carries the entry of a given rank over from a source. -/
def Change.carryRank (same : Match) (owner : String) (source : List Node) (s : Change)
    (rank : Nat) : Change :=
  match splitAtRank rank source with
  | none => s
  | some (before, entry) => s.carry same owner before entry

/-- Carries over every entry of a source that the section has not yet. -/
def carry (same : Match) (owner : String) (source children : List Node) : Change :=
  (List.range (elementsOf source).length).foldl (Change.carryRank same owner source)
    { children := children }

/-- What a refresh did. -/
structure Refreshed where
  children : List Node
  removed : List Element := []
  added : List Element := []
  log : List Record := []

/-- Whether a refresh removed or added anything. -/
def Refreshed.changed (r : Refreshed) : Bool :=
  !(r.removed.isEmpty && r.added.isEmpty)

/--
How a section is refreshed: what is added, what is removed besides, and where new entries go.
Without `removal`, the entries that go are those that `same` names.
-/
structure Renewal where
  candidates : List Element
  same : Match
  anchor : Option (Element → Bool) := none
  stale : List Element := []
  removal : Option (List Match) := none

/-- The entries that a refresh removes first. -/
def Renewal.unwanted (r : Renewal) : Element → Bool :=
  isNamed (r.removal.getD [r.same]) (r.stale ++ r.candidates)

/-- Removes the stale entries and those to be replaced, then adds the candidates. -/
def refresh (r : Renewal) (owner : String) (children : List Node) : Refreshed :=
  let removal := removeFrom r.unwanted owner [] children
  let addition := addMissing r.same r.anchor owner r.candidates removal.children
  { children := addition.children
    removed := removal.entries
    added := addition.entries
    log := removal.log ++ addition.log }

end Manifest
