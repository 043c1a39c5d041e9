import Manifest.Maintenance
import Manifest.Proofs.Action

/-! Operations of maintenance leave files whole. Everything but the saving at the end leaves the files as
they are, and nothing can fail after it. So an operation that fails changes no file, and one that ends with
a result changes no file but its own. -/

set_option autoImplicit false

namespace Manifest

open Manifest.Action (KeepsTree AllOrNothing Gives keepsTree_pure keepsTree_bind keepsTree_record
  keepsTree_tree keepsTree_ofExcept keepsTree_adapt keepsTree_throw)

/-! Reading and working on documents. -/

theorem keepsTree_recordRead (r : Except ReadError Document) (source : String) :
    KeepsTree (Document.recordRead r source) :=
  keepsTree_bind (keepsTree_ofExcept _ _) fun _ =>
    keepsTree_bind (keepsTree_record _) fun _ => keepsTree_pure _

theorem keepsTree_load (p : Path) : KeepsTree (Document.load p) :=
  keepsTree_bind keepsTree_tree fun _ => keepsTree_bind (keepsTree_ofExcept _ _) fun _ =>
    keepsTree_bind (keepsTree_record _) fun _ => keepsTree_recordRead _ _

theorem keepsTree_loadOrCreate (p : Path) (template : String) :
    KeepsTree (Document.loadOrCreate p template) := by
  refine keepsTree_bind keepsTree_tree fun t => ?_
  split
  · exact keepsTree_load p
  · exact keepsTree_bind (keepsTree_record _) fun _ => keepsTree_recordRead _ _

theorem keepsTree_sections {α : Type} (r : Except SectionError α) :
    KeepsTree (Upkeep.sections r) :=
  keepsTree_ofExcept _ _

theorem keepsTree_store {α : Type} {work : Action StoreError α} (h : KeepsTree work) :
    KeepsTree (Upkeep.store work) :=
  keepsTree_adapt _ h

theorem keepsTree_findSection (d : Document) (path : List String) :
    KeepsTree (findSection d path) :=
  keepsTree_bind (keepsTree_sections _) fun _ =>
    keepsTree_bind (keepsTree_record _) fun _ => keepsTree_pure _

theorem keepsTree_ensureSection (d : Document) (path : List String) :
    KeepsTree (ensureSection d path) :=
  keepsTree_bind (keepsTree_sections _) fun _ =>
    keepsTree_bind (keepsTree_record _) fun _ => keepsTree_pure _

theorem keepsTree_refreshAt (d : Document) (position : Position) (renewal : Renewal) :
    KeepsTree (refreshAt d position renewal) :=
  keepsTree_bind (keepsTree_sections _) fun _ =>
    keepsTree_bind (keepsTree_record _) fun _ => keepsTree_pure _

theorem keepsTree_addAt (d : Document) (place : Option Position) (same : Match)
    (anchor : Option (Element → Bool)) (candidates : List Element) :
    KeepsTree (addAt d place same anchor candidates) := by
  refine keepsTree_bind (keepsTree_sections _) fun _ =>
    keepsTree_bind (keepsTree_record _) fun _ => ?_
  split <;> exact keepsTree_pure _

theorem keepsTree_step (d : Document) (step : Step) : KeepsTree (step.run d) := by
  cases step with
  | refresh path renewal create =>
    refine keepsTree_bind (keepsTree_findSection d path) fun place => ?_
    split
    · exact keepsTree_refreshAt _ _ _
    · split
      · exact keepsTree_bind (keepsTree_ensureSection d path) fun _ => keepsTree_refreshAt _ _ _
      · exact keepsTree_bind (keepsTree_record _) fun _ => keepsTree_pure _
  | add path same anchor candidates =>
    exact keepsTree_bind (keepsTree_findSection d path) fun _ => keepsTree_addAt _ _ _ _ _
  | setProperty name value =>
    exact keepsTree_bind (keepsTree_sections _) fun _ =>
      keepsTree_bind (keepsTree_record _) fun _ => keepsTree_pure _
  | addModule path =>
    exact keepsTree_bind (keepsTree_ensureSection d ["modules"]) fun _ =>
      keepsTree_addAt _ _ _ _ _

/-- However many steps are run, no file changes. -/
theorem keepsTree_runSteps (d : Document) (outcomes : List Outcome) (steps : List Step) :
    KeepsTree (runSteps d outcomes steps) := by
  induction steps generalizing d outcomes with
  | nil => exact keepsTree_pure _
  | cons step rest ih => exact keepsTree_bind (keepsTree_step d step) fun r => ih _ _

theorem keepsTree_keep (p : Path) (existing new : Document) (path : List String)
    (identity : Identity) : KeepsTree (Maintainer.keep p existing new path identity) := by
  refine keepsTree_bind (keepsTree_findSection existing path) fun source => ?_
  split
  · exact keepsTree_pure _
  · refine keepsTree_bind (keepsTree_findSection new path) fun place => ?_
    split
    · exact keepsTree_bind (keepsTree_pure _) fun _ => keepsTree_bind (keepsTree_sections _)
        fun _ => keepsTree_bind (keepsTree_record _) fun _ => keepsTree_pure _
    · exact keepsTree_bind (keepsTree_ensureSection new path) fun _ =>
        keepsTree_bind (keepsTree_sections _) fun _ =>
          keepsTree_bind (keepsTree_record _) fun _ => keepsTree_pure _

theorem keepsTree_keepAll (p : Path) (existing new : Document)
    (sections : List (List String × Identity)) :
    KeepsTree (sections.foldlM
      (fun new (path, identity) => Maintainer.keep p existing new path identity) new) := by
  induction sections generalizing new with
  | nil => exact keepsTree_pure _
  | cons s sections ih =>
    rw [List.foldlM_cons]
    exact keepsTree_bind (keepsTree_keep p existing new s.1 s.2) fun new' => ih new'

theorem Maintainer.keepsTree_resolve (m : Maintainer) (requested : String) :
    KeepsTree (m.resolve requested) := by
  rw [resolve]
  split
  · exact keepsTree_throw _
  · next source _ =>
    refine keepsTree_bind ?_ fun _ => keepsTree_bind (keepsTree_ofExcept _ _) fun _ =>
      keepsTree_bind (keepsTree_record _) fun _ => keepsTree_pure _
    cases source with
    | listed releases => exact keepsTree_pure _
    | metadata text => exact keepsTree_ofExcept _ _

/-! Saving. -/

/-- What is left to do when the content of a file has been put in place, or could not be. -/
def tellWritten (p : Path) (size : Nat) :
    Except (FileTree.Stage × FileError) Unit → Action StoreError Unit
  | .ok () =>
    Action.record [.debug ("I/O: wrote XML path=" ++ p.text ++ " bytes=" ++ toString size)]
  | .error (stage, e) => do
    if stage == .replacing then
      Action.record [.error ("I/O FAIL: write XML path=" ++ p.text)]
    throw (.file e)

theorem run_save {d : Document} {style : Style} {bytes : ByteArray}
    (h : d.bytes style = .ok bytes) (p : Path) (w : World) :
    (ExceptT.run (d.save p style)).run w =
      (ExceptT.run (tellWritten p bytes.size (w.tree.writeWhole p bytes).2)).run
        { w with tree := (w.tree.writeWhole p bytes).1 } := by
  rw [Document.save, h]
  rfl

/-- A document is saved as a whole or not at all. -/
theorem allOrNothing_save (d : Document) (p : Path) (style : Style) :
    AllOrNothing (d.save p style) p := by
  intro w
  cases hbytes : d.bytes style with
  | error e =>
    rw [Document.save, hbytes]
    exact FileTree.SameFiles.refl w.tree
  | ok bytes =>
    have hwrite := w.tree.writeWhole_spec p bytes
    rw [run_save hbytes]
    rcases hw : w.tree.writeWhole p bytes with ⟨t, ⟨stage, e⟩ | _⟩
    · rw [hw] at hwrite
      cases stage <;> exact hwrite
    · rw [hw] at hwrite
      exact ⟨bytes, hwrite⟩

namespace Maintainer

variable (m : Maintainer) (p : Path)

theorem allOrNothing_write (d : Document) : AllOrNothing (m.write d p) p := by
  have hsave : ∀ d : Document, AllOrNothing (do
      Upkeep.store (d.save p m.style)
      Action.record [.info ("Wrote manifest " ++ p.text)]
      return d) p := fun d =>
    ((allOrNothing_save d p m.style).adapt _).bind fun _ w =>
      ⟨d, { w with log := w.log ++ [.info ("Wrote manifest " ++ p.text)] }, rfl, rfl⟩
  rw [write]
  split
  · refine (keepsTree_sections d.collapse).allOrNothing_bind fun collapsed => ?_
    obtain ⟨d, count⟩ := collapsed
    exact (keepsTree_record _).allOrNothing_bind fun _ =>
      (keepsTree_pure d).allOrNothing_bind fun d => hsave d
  · exact (keepsTree_pure d).allOrNothing_bind fun d => hsave d

theorem allOrNothing_update (steps : List Step) (template : Option String) :
    AllOrNothing (m.update p steps template) p := by
  have hrest : ∀ d : Document, AllOrNothing (do
      let ran ← runSteps d [] steps
      let d ← m.write ran.1 p
      return (d, ran.2.map (Outcome.report d))) p := by
    refine fun d => (keepsTree_runSteps d [] steps).allOrNothing_bind fun ran => ?_
    obtain ⟨d, outcomes⟩ := ran
    exact (m.allOrNothing_write p d).bind fun _ w => ⟨_, w, rfl, rfl⟩
  cases template with
  | none => exact (keepsTree_store (keepsTree_load p)).allOrNothing_bind hrest
  | some template =>
    exact (keepsTree_store (keepsTree_loadOrCreate p template)).allOrNothing_bind hrest

theorem allOrNothing_regenerate (template : String) : AllOrNothing (m.regenerate p template) p := by
  refine (keepsTree_store (keepsTree_recordRead _ _)).allOrNothing_bind fun new =>
    keepsTree_tree.allOrNothing_bind fun t => ?_
  split
  · exact (keepsTree_store (keepsTree_load p)).allOrNothing_bind fun existing =>
      (keepsTree_keepAll p existing new keptSections).allOrNothing_bind fun new =>
        m.allOrNothing_write p new
  · exact m.allOrNothing_write p new

theorem allOrNothing_refreshEntries (path : List String) (renewal : Renewal)
    (requested : Option String) : AllOrNothing (m.refreshEntries p path renewal requested) p := by
  have hrest : ∀ candidates : List Element, AllOrNothing (do
      let updated ← m.update p [.refresh path { renewal with candidates } true]
      return updated.2.head?.getD (.refreshed [] [])) p := by
    refine fun candidates => (m.allOrNothing_update p _ none).bind fun updated w => ?_
    obtain ⟨_, reports⟩ := updated
    exact ⟨_, w, rfl, rfl⟩
  cases requested with
  | none => exact (keepsTree_pure renewal.candidates).allOrNothing_bind hrest
  | some requested =>
    exact (m.keepsTree_resolve requested).allOrNothing_bind fun _ =>
      (keepsTree_pure _).allOrNothing_bind hrest

theorem allOrNothing_addModule (path : String) : AllOrNothing (m.addModule p path) p := by
  refine (m.allOrNothing_update p [.addModule path] none).bind fun updated w => ?_
  obtain ⟨_, reports⟩ := updated
  exact ⟨_, w, rfl, rfl⟩

theorem allOrNothing_setProperty (name value : String) (template : Option String) :
    AllOrNothing (m.setProperty p name value template) p := by
  refine (m.allOrNothing_update p [.setProperty name value] template).bind fun updated w => ?_
  obtain ⟨_, reports⟩ := updated
  exact ⟨_, w, rfl, rfl⟩

/-- An operation on the file at a path. -/
inductive Call where
  | update (steps : List Step) (template : Option String)
  | regenerate (template : String)
  | addModule (module : String)
  | setProperty (name value : String) (template : Option String)
  | refreshEntries (path : List String) (renewal : Renewal) (requested : Option String)
  | save (d : Document) (style : Style)

/-- Runs an operation; what it gives besides the file is left out. -/
def Call.run : Call → Upkeep Unit
  | .update steps template => discard (m.update p steps template)
  | .regenerate template => discard (m.regenerate p template)
  | .addModule module => discard (m.addModule p module)
  | .setProperty name value template => discard (m.setProperty p name value template)
  | .refreshEntries path renewal requested => discard (m.refreshEntries p path renewal requested)
  | .save d style => Upkeep.store (d.save p style)

end Maintainer

end Manifest
