import Manifest.Identity
import Manifest.Merge

/-!
Merging inside documents.

A merge works on the section at a position and leaves the rest of the document as it is. Entries can
be carried or added from a section of the same document; such a section is read anew for every entry,
as the merge may change it. `Document.setProperty` gives a property its value.
-/

set_option autoImplicit false

namespace Manifest.Document

/-- The document with other children for the element at a position. -/
def setChildren (d : Document) (position : Position) (children : List Node) : Document :=
  d.modifyAt (fun e => { e with children := children }) position

/-- Works on the owner of a section and puts the new children in place. -/
def onSection {α : Type} (d : Document) (place : Option Position) (work : Element → α)
    (children : α → List Node) : Except SectionError (Document × α) :=
  match place with
  | none => .error .absent
  | some position =>
    match d.at? position with
    | none => .error .absent
    | some owner =>
      let result := work owner
      .ok (d.setChildren position (children result), result)

/-- Adds the candidates that a section lacks. -/
def addMissing (d : Document) (place : Option Position) (same : Match)
    (anchor : Option (Element → Bool)) (candidates : List Element) :
    Except SectionError (Document × Change) :=
  d.onSection place (fun e => Manifest.addMissing same anchor e.name candidates e.children)
    Change.children

/-- Removes the entries of a section that some candidate is the same as. -/
def removeMatching (d : Document) (place : Option Position) (same : List Match)
    (candidates : List Element) : Except SectionError (Document × Change) :=
  d.onSection place (fun e => Manifest.removeMatching same e.name candidates e.children)
    Change.children

/-- Puts an entry into a section. -/
def insertAfter (d : Document) (place : Option Position) (anchor : Element → Bool)
    (entry : Element) : Except SectionError (Document × Change) :=
  d.onSection place (fun e => Manifest.insertAfter anchor e.name entry e.children) Change.children

/-- Refreshes a section. -/
def refresh (d : Document) (place : Option Position) (renewal : Renewal) :
    Except SectionError (Document × Refreshed) :=
  d.onSection place (fun e => Manifest.refresh renewal e.name e.children) Refreshed.children

/-- Carries over what a section lacks of the entries of another document's section. -/
def carry (d : Document) (place : Option Position) (same : Match) (source : Option Element) :
    Except SectionError (Document × Change) :=
  d.onSection place
    (fun e =>
      match source with
      | none => { children := e.children }
      | some source => Manifest.carry same e.name source.children e.children)
    Change.children

/-- Carries the entry of a given rank from a section of the same document. -/
def carryRankWithin (same : Match) (target source : Position) (s : Document × Change) (rank : Nat) :
    Document × Change :=
  match s.1.at? target, s.1.at? source with
  | some owner, some from' =>
    let change := { s.2 with children := owner.children }.carryRank same owner.name from'.children rank
    (s.1.setChildren target change.children, change)
  | _, _ => s

/-- Carries over what a section lacks of the entries of another section of the same document. -/
def carryWithin (d : Document) (place : Option Position) (same : Match)
    (source : Option Position) : Except SectionError (Document × Change) :=
  match place, place.bind d.at? with
  | some target, some owner =>
    match source, source.bind d.at? with
    | some position, some element =>
      .ok ((List.range element.elements.length).foldl (carryRankWithin same target position)
        (d, { children := owner.children }))
    | _, _ => .ok (d, { children := owner.children })
  | _, _ => .error .absent

/-- Adds the entry of a given rank of a section of the same document, unless some entry is the same. -/
def addRankWithin (same : Match) (target source : Position) (s : Document × Addition) (rank : Nat) :
    Document × Addition :=
  match s.1.at? target, (s.1.at? source).bind (·.elements[rank]?) with
  | some owner, some entry =>
    let addition := Addition.add same none owner.name { s.2 with children := owner.children } entry
    (s.1.setChildren target addition.children, addition)
  | _, _ => s

/--
Adds the entries of another section of the same document that a section lacks, without an anchor. All of them
go to the end, so no entry of the source gets another rank.
-/
def addWithin (d : Document) (place : Option Position) (same : Match) (source : Position) :
    Except SectionError (Document × Change) :=
  match place, place.bind d.at? with
  | some target, some owner =>
    let count := ((d.at? source).map (·.elements.length)).getD 0
    let (d, addition) := (List.range count).foldl (addRankWithin same target source)
      (d, { children := owner.children })
    .ok (d, addition.toChange)
  | _, _ => .error .absent

/-- A document after a property was set, whether that changed it, and what was recorded. -/
structure PropertySet where
  document : Document
  /-- Where the properties are. -/
  position : Position
  changed : Bool
  log : List Record

/-- Gives a property its value. It is created after the other properties if there is none yet. -/
def setProperty (d : Document) (name value : String) : Except SectionError PropertySet := do
  let (d, position, log) ← d.ensure none ["properties"]
  match (d.at? position).bind (·.ranked? name) with
  | some (existing, rank) =>
    if Text.strip existing.text == value then return ⟨d, position, false, log⟩
    else
      return ⟨d.modifyAt (·.withText value) (position ++ [rank]), position, true, log⟩
  | none =>
    let new := (Element.ofName name).withText value
    let (d, change) ← d.addMissing (some position) Identity.property.same none [new]
    return ⟨d, position, true, log ++ change.log⟩

end Manifest.Document
