import Manifest.Document.Merge
import Manifest.Document.Store
import Manifest.Leaf
import Manifest.Release.Metadata
import Manifest.Settings
import Manifest.Shift

/-!
Maintenance of the manifests in files.

Every operation on a file loads it, works on the document and saves it, so that one that fails
changes no file. `update` takes steps to run on the document, `regenerate` starts over from a
template and keeps what was added to the file by hand.
-/

set_option autoImplicit false

namespace Manifest

/-- Where releases are looked up. -/
inductive Release.Source where
  | listed (releases : List String)
  /-- Repository metadata, read anew for every look-up. -/
  | metadata (text : String)
  deriving Repr

/-- Why an operation of maintenance failed. -/
inductive MaintenanceError where
  | store (e : StoreError)
  | section' (e : SectionError)
  | select (e : Release.SelectError)
  /-- The metadata that should list releases is malformed. -/
  | metadata (e : ReadError)
  /-- A version is asked for, but there is nowhere to look releases up. -/
  | noReleases
  deriving Repr, DecidableEq

/-- The message when there is nowhere to look releases up. -/
def noReleasesMessage : String := "No version resolver configured"

/-- How manifests are written, and where releases are looked up. -/
structure Maintainer where
  style : Style := {}
  /-- Whether leaves are put on one line before a document is written. -/
  collapses : Bool := true
  releases : Option Release.Source := none

/-- A maintainer with given settings. -/
def Maintainer.ofSettings (s : Settings) (releases : Option Release.Source) : Maintainer :=
  { style := s.style, collapses := s.collapsesLeaves, releases := releases }

/-- An operation of maintenance. -/
abbrev Upkeep (α : Type) := Action MaintenanceError α

/-- Work on files as part of maintenance. -/
def Upkeep.store {α : Type} (work : Action StoreError α) : Upkeep α :=
  work.adapt .store

/-- Work on a section as part of maintenance. -/
def Upkeep.sections {α : Type} (r : Except SectionError α) : Upkeep α :=
  Action.ofExcept .section' r

/-- A step of an update. -/
inductive Step where
  /-- Refreshes a section; a missing one is created, or the step is skipped. -/
  | refresh (path : List String) (renewal : Renewal) (create : Bool)
  /-- Adds what a section lacks of some entries; the section must be there. -/
  | add (path : List String) (same : Match) (anchor : Option (Element → Bool))
      (candidates : List Element)
  /-- Gives a property its value. -/
  | setProperty (name value : String)
  /-- Registers a module. -/
  | addModule (path : String)

/-- What a step did, while later steps may still move the entries it added. -/
inductive Outcome where
  | skipped
  | refreshed (removed : List Element) (added : List Held)
  | added (added : List Held)
  | property (changed : Bool)

/-- What a step did. -/
inductive Report where
  | skipped
  | refreshed (removed added : List Element)
  | added (added : List Element)
  | property (changed : Bool)

/-- Whether a step changed its document, as far as it tells. -/
def Report.changed : Report → Bool
  | .skipped => false
  | .refreshed gone new => !(gone.isEmpty && new.isEmpty)
  | .added entries => !entries.isEmpty
  | .property changed => changed

/-- An outcome after some changes, given the document before them. -/
def Outcome.follow (before : Document) (shifts : List Shift) : Outcome → Outcome
  | .refreshed gone new => .refreshed gone (new.filterMap (Held.follow before shifts))
  | .added new => .added (new.filterMap (Held.follow before shifts))
  | outcome => outcome

/-- What a step did, with the entries it added as they stand in a document. -/
def Outcome.report (d : Document) : Outcome → Report
  | .skipped => .skipped
  | .refreshed gone new => .refreshed gone (new.filterMap (Held.look d))
  | .added new => .added (new.filterMap (Held.look d))
  | .property changed => .property changed

/-- A document after a step, what the step did, and where elements went. -/
structure StepResult where
  document : Document
  outcome : Outcome
  shifts : List Shift := []

/-- Refreshes the section at a position. -/
def refreshAt (d : Document) (position : Position) (renewal : Renewal) : Upkeep StepResult := do
  let children := ((d.at? position).map (·.children)).getD []
  let (after, r) ← Upkeep.sections (d.refresh (some position) renewal)
  Action.record r.log
  let shifts := renewal.shifts position children r.added.length
  let left := (removeFrom renewal.unwanted "" [] children).children
  let rank := additionRank renewal.anchor left
  return ⟨after, .refreshed r.removed
    ((insertedPositions position rank r.added.length).map .present), shifts⟩

/-- Adds what the section at a position lacks of some entries. -/
def addAt (d : Document) (place : Option Position) (same : Match)
    (anchor : Option (Element → Bool)) (candidates : List Element) : Upkeep StepResult := do
  let (after, change) ← Upkeep.sections (d.addMissing place same anchor candidates)
  Action.record change.log
  match place with
  | none => return ⟨after, .added [], []⟩
  | some position =>
    let children := ((d.at? position).map (·.children)).getD []
    let count := change.entries.length
    return ⟨after,
      .added ((insertedPositions position (additionRank anchor children) count).map .present),
      [additionShift position anchor children count]⟩

/-- The record of a step that is skipped. -/
def skippedRecord (path : List String) : Record :=
  .info ("Skipping refresh, no <" ++ String.intercalate "/" path ++ "> section")

/-- Finds a section; records that there is none. -/
def findSection (d : Document) (path : List String) : Upkeep (Option Position) := do
  let (place, log) ← Upkeep.sections (d.find none path)
  Action.record log
  return place

/-- Finds a section, or creates it. -/
def ensureSection (d : Document) (path : List String) : Upkeep (Document × Position) := do
  let (d, position, log) ← Upkeep.sections (d.ensure none path)
  Action.record log
  return (d, position)

/-- Runs a step. -/
def Step.run (d : Document) : Step → Upkeep StepResult
  | .refresh path renewal create => do
    match ← findSection d path with
    | some position => refreshAt d position renewal
    | none =>
      if create then
        let (d, position) ← ensureSection d path
        refreshAt d position renewal
      else
        Action.record [skippedRecord path]
        return ⟨d, .skipped, []⟩
  | .add path same anchor candidates => do
    addAt d (← findSection d path) same anchor candidates
  | .setProperty name value => do
    let r ← Upkeep.sections (d.setProperty name value)
    Action.record r.log
    let shifts := match (r.document.at? r.position).bind (·.ranked? name) with
      | some (_, rank) => [Shift.cleared (r.position ++ [rank])]
      | none => []
    return ⟨r.document, .property r.changed, if r.changed then shifts else []⟩
  | .addModule path => do
    let (d, position) ← ensureSection d ["modules"]
    addAt d (some position) Identity.module.same none [.module path]

/-- Runs steps one after another. -/
def runSteps (d : Document) (outcomes : List Outcome) : List Step → Upkeep (Document × List Outcome)
  | [] => return (d, outcomes)
  | step :: rest => do
    let r ← step.run d
    runSteps r.document (outcomes.map (Outcome.follow d r.shifts) ++ [r.outcome]) rest

namespace Maintainer

/-- Writes a document to a file, with its leaves on one line if so configured. -/
def write (m : Maintainer) (d : Document) (p : Path) : Upkeep Document := do
  let d ←
    if m.collapses then do
      let (d, count) ← Upkeep.sections d.collapse
      Action.record (collapsedRecords count)
      pure d
    else pure d
  Upkeep.store (d.save p m.style)
  Action.record [.info ("Wrote manifest " ++ p.text)]
  return d

/-- Runs steps on the manifest in a file. With a template, the file need not be there. -/
def update (m : Maintainer) (p : Path) (steps : List Step) (template : Option String := none) :
    Upkeep (Document × List Report) := do
  let d ← match template with
    | none => Upkeep.store (Document.load p)
    | some template => Upkeep.store (Document.loadOrCreate p template)
  let (d, outcomes) ← runSteps d [] steps
  let d ← m.write d p
  return (d, outcomes.map (Outcome.report d))

/-- The sections whose entries are kept when a manifest is made anew from its template. -/
def keptSections : List (List String × Identity) :=
  [(["modules"], .module), (["properties"], .property),
   (["dependencyManagement", "dependencies"], .dependency), (["dependencies"], .dependency),
   (["build", "pluginManagement", "plugins"], .plugin), (["build", "plugins"], .plugin),
   (["profiles"], .profile)]

/-- The record of entries that were kept. -/
def keptRecords (count : Nat) (path : List String) (p : Path) : List Record :=
  if count == 0 then []
  else [.info ("Kept " ++ toString count ++ " existing <" ++ String.intercalate "/" path ++
    "> entries in " ++ p.text)]

/-- Carries the entries of a section of an existing document over into a new one. -/
def keep (p : Path) (existing new : Document) (path : List String) (identity : Identity) :
    Upkeep Document := do
  match ← findSection existing path with
  | none => return new
  | some source =>
    let (new, position) ← match ← findSection new path with
      | some position => pure (new, position)
      | none => ensureSection new path
    let (new, change) ←
      Upkeep.sections (new.carry (some position) identity.same (existing.at? source))
    Action.record (change.log ++ keptRecords change.entries.length path p)
    return new

/-- Makes a manifest anew from its template, and keeps the entries that the template lacks. -/
def regenerate (m : Maintainer) (p : Path) (template : String) : Upkeep Document := do
  let new ← Upkeep.store (Document.readTemplate p template)
  if (← Action.tree).has p then
    let existing ← Upkeep.store (Document.load p)
    let new ← keptSections.foldlM
      (fun new (path, identity) => keep p existing new path identity) new
    m.write new p
  else m.write new p

/-- Registers a module in the manifest in a file; tells whether it was not there before. -/
def addModule (m : Maintainer) (p : Path) (path : String) : Upkeep Bool := do
  let (_, reports) ← m.update p [.addModule path]
  return reports.any Report.changed

/-- Gives a property of the manifest in a file its value; tells whether that changed it. -/
def setProperty (m : Maintainer) (p : Path) (name value : String)
    (template : Option String := none) : Upkeep Bool := do
  let (_, reports) ← m.update p [.setProperty name value] template
  return reports.any Report.changed

/-- The releases there are. -/
def listReleases : Release.Source → Upkeep (List String)
  | .listed releases => return releases
  | .metadata text => Action.ofExcept .metadata (Release.readMetadata text)

/-- The best version that a request admits. -/
def resolve (m : Maintainer) (requested : String) : Upkeep String := do
  match m.releases with
  | none => throw .noReleases
  | some source =>
    let releases ← listReleases source
    let version ← Action.ofExcept .select (Release.select requested releases)
    Action.record [Release.selectRecord requested version releases]
    return version

/-- Refreshes a section of the manifest in a file, with candidates of a version if one is asked for. -/
def refreshEntries (m : Maintainer) (p : Path) (path : List String) (renewal : Renewal)
    (requested : Option String := none) : Upkeep Report := do
  let candidates ← match requested with
    | none => pure renewal.candidates
    | some requested => do
      let version ← m.resolve requested
      pure (renewal.candidates.map (·.withVersion version))
  let (_, reports) ← m.update p [.refresh path { renewal with candidates } true]
  return reports.head?.getD (.refreshed [] [])

end Maintainer

end Manifest
