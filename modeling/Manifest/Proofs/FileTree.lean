import Manifest.FileTree
import Mathlib.Data.List.Nodup
import Mathlib.Data.List.Perm.Subperm
import Std.Data.String.ToNat

/-! Files in a tree. What is at a place depends on nothing that is put or erased elsewhere, and a place
for a temporary file is free. So the content of a file is put in place whole, at the place that its
path leads to, or no file is changed at all; directories may have been made in either case. -/

set_option autoImplicit false

namespace Manifest.FileTree

/-- A file that can be read is there. -/
theorem has_of_read {t : FileTree} {p : Path} {bytes : ByteArray} (h : t.read p = .ok bytes) :
    t.has p = true := by
  rw [read] at h
  rw [has]
  cases hl : t.locate p with
  | error e =>
    rw [hl] at h
    cases h
  | ok place =>
    rw [hl] at h
    simp only [bind, Except.bind] at h
    cases he : t.at? place with
    | none =>
      rw [he] at h
      cases h
    | some entry => simp [he]

/-! What is at a place after a change. -/

theorem lookup_replaced (entries : List (Place × Entry)) (place q : Place) (e : Entry) :
    (entries.map fun (p, old) => (p, if p == place then e else old)).lookup q =
      (entries.lookup q).map fun old => if q = place then e else old := by
  induction entries with
  | nil => rfl
  | cons x entries ih =>
    obtain ⟨p, old⟩ := x
    rw [List.map_cons, List.lookup_cons, List.lookup_cons]
    by_cases hq : q = p
    · subst hq
      simp
    · rw [beq_false_of_ne hq]
      exact ih

theorem lookup_put (t : FileTree) (place q : Place) (e : Entry) :
    (t.put place e).entries.lookup q = if q = place then some e else t.entries.lookup q := by
  rw [put]
  cases hp : t.entries.lookup place with
  | some old =>
    rw [Option.isSome_some, if_pos rfl, lookup_replaced]
    by_cases hq : q = place
    · rw [hq, hp, if_pos rfl]
      simp
    · simp [hq]
  | none =>
    rw [Option.isSome_none, if_neg (by simp), List.lookup_append]
    by_cases hq : q = place
    · subst hq
      simp [hp]
    · have hne : (q == place) = false := beq_false_of_ne hq
      simp [List.lookup_cons, hne, hq]

theorem at?_put (t : FileTree) {place : Place} (h : place ≠ []) (e : Entry) (q : Place) :
    (t.put place e).at? q = if q = place then some e else t.at? q := by
  rw [at?, at?, lookup_put]
  by_cases hq : q = place
  · subst hq
    rw [if_pos rfl, if_pos rfl, if_neg (by simpa using h)]
  · rw [if_neg hq, if_neg hq]

theorem lookup_erase (t : FileTree) (place q : Place) :
    (t.erase place).entries.lookup q = if q = place then none else t.entries.lookup q := by
  rw [erase]
  induction t.entries with
  | nil => simp
  | cons x entries ih =>
    obtain ⟨p, old⟩ := x
    rw [List.filter_cons, List.lookup_cons]
    by_cases hp : p = place
    · subst hp
      rw [if_neg (by simp), ih]
      by_cases hq : q = p
      · simp [hq]
      · rw [if_neg hq, if_neg hq, beq_false_of_ne hq]
    · rw [if_pos (by simpa using hp), List.lookup_cons]
      by_cases hq : q = p
      · subst hq
        simp [hp]
      · rw [beq_false_of_ne hq]
        exact ih

theorem at?_erase (t : FileTree) {place : Place} (h : place ≠ []) (q : Place) :
    (t.erase place).at? q = if q = place then none else t.at? q := by
  rw [at?, at?, lookup_erase]
  by_cases hq : q = place
  · subst hq
    rw [if_pos rfl, if_pos rfl, if_neg (by simpa using h)]
  · rw [if_neg hq, if_neg hq]

/-! The content of files. -/

/-- The content of the file at a place, if there is a file. -/
def content? (t : FileTree) (place : Place) : Option ByteArray :=
  match t.at? place with
  | some (.file bytes) => some bytes
  | _ => none

/-- Whether two trees have the same files with the same content. -/
def SameFiles (t t' : FileTree) : Prop :=
  ∀ q, t'.content? q = t.content? q

/--
Whether the file at a path has some content in the second tree and no other file differs: the first
tree has the same files everywhere else.
-/
def Replaced (t t' : FileTree) (p : Path) (bytes : ByteArray) : Prop :=
  ∃ place, t'.locate p = .ok place ∧ t'.content? place = some bytes ∧
    ∀ q, q ≠ place → t'.content? q = t.content? q

theorem SameFiles.refl (t : FileTree) : t.SameFiles t :=
  fun _ => rfl

theorem SameFiles.trans {t₁ t₂ t₃ : FileTree} (h : t₁.SameFiles t₂) (h' : t₂.SameFiles t₃) :
    t₁.SameFiles t₃ :=
  fun q => (h' q).trans (h q)

theorem SameFiles.replaced {t₁ t₂ t₃ : FileTree} {p : Path} {bytes : ByteArray}
    (h : t₁.SameFiles t₂) (h' : t₂.Replaced t₃ p bytes) : t₁.Replaced t₃ p bytes := by
  obtain ⟨place, hplace, hcontent, hrest⟩ := h'
  exact ⟨place, hplace, hcontent, fun q hq => (hrest q hq).trans (h q)⟩

theorem content?_congr {t t' : FileTree} {q : Place} (h : t'.at? q = t.at? q) :
    t'.content? q = t.content? q := by
  rw [content?, content?, h]

/-- A directory where there was nothing is no file. -/
theorem sameFiles_put_directory {t : FileTree} {place : Place} (h : place ≠ [])
    (hfree : t.at? place = none) : t.SameFiles (t.put place .directory) := by
  intro q
  by_cases hq : q = place
  · rw [content?, content?, at?_put t h, if_pos hq, hq, hfree]
  · exact content?_congr (by rw [at?_put t h, if_neg hq])

/-! Ways through directories. -/

/-- A path that has an end names something that can be made, replaced or removed there. -/
theorem ending_eq_some {t : FileTree} {p : Path} {place : Place}
    (h : t.ending p = .ok (some place)) :
    ∃ parent name, t.locate p.parent = .ok parent ∧ t.at? parent = some .directory ∧
      p.parts.getLast? = some name ∧ name ≠ up ∧ place = parent ++ [name] := by
  rw [ending] at h
  cases hl : t.locate p.parent with
  | error e =>
    rw [hl] at h
    cases h
  | ok parent =>
    rw [hl] at h
    simp only [bind, Except.bind] at h
    cases he : t.at? parent with
    | none =>
      rw [he] at h
      cases h
    | some entry =>
      cases entry with
      | file bytes =>
        rw [he] at h
        cases h
      | directory =>
        rw [he] at h
        cases hn : p.parts.getLast? with
        | none =>
          rw [hn] at h
          cases h
        | some name =>
          rw [hn] at h
          by_cases hup : name = up
          · simp [hup] at h
          · have hplace : parent ++ [name] = place := by simpa [hup] using h
            exact ⟨parent, name, rfl, he, rfl, hup, hplace.symm⟩

theorem ending_ne_nil {t : FileTree} {p : Path} {place : Place}
    (h : t.ending p = .ok (some place)) : place ≠ [] := by
  obtain ⟨parent, name, -, -, -, -, rfl⟩ := ending_eq_some h
  simp

theorem walk_append (t : FileTree) (front back : List String) (from' : Place) :
    t.walk from' (front ++ back) = (t.walk from' front).bind fun place => t.walk place back := by
  induction front generalizing from' with
  | nil => rfl
  | cons part front ih =>
    rw [List.cons_append, walk, walk]
    cases t.at? from' with
    | none => rfl
    | some entry =>
      cases entry with
      | file bytes => rfl
      | directory => exact ih _

/-- A way through directories stays open as long as these are directories. -/
theorem walk_of_directories {t t' : FileTree}
    (h : ∀ q, t.at? q = some .directory → t'.at? q = some .directory) {parts : List String}
    {from' place : Place} (hw : t.walk from' parts = .ok place) : t'.walk from' parts = .ok place := by
  induction parts generalizing from' with
  | nil => exact hw
  | cons part rest ih =>
    rw [walk] at hw ⊢
    cases he : t.at? from' with
    | none =>
      rw [he] at hw
      cases hw
    | some entry =>
      cases entry with
      | file bytes =>
        rw [he] at hw
        cases hw
      | directory =>
        rw [he] at hw
        rw [h from' he]
        exact ih hw

/-- The end of a path is where the path leads to. -/
theorem locate_of_ending {t t' : FileTree}
    (h : ∀ q, t.at? q = some .directory → t'.at? q = some .directory) {p : Path}
    {place : Place} (hp : t.ending p = .ok (some place)) : t'.locate p = .ok place := by
  obtain ⟨parent, name, hparent, hdirectory, hname, hup, rfl⟩ := ending_eq_some hp
  have hparts : p.parts = p.parent.parts ++ [name] := by
    have hne : p.parts ≠ [] := by
      intro hnil
      rw [hnil] at hname
      cases hname
    rw [List.getLast?_eq_some_getLast hne, Option.some.injEq] at hname
    rw [Path.parent, ← hname, List.dropLast_concat_getLast]
  rw [locate] at hparent
  rw [locate, hparts, walk_append, walk_of_directories h hparent]
  simp [Except.bind, walk, h parent hdirectory, hup]

/-- A path ends where it did as long as the directories on the way are there. -/
theorem ending_of_directories {t t' : FileTree}
    (h : ∀ q, t.at? q = some .directory → t'.at? q = some .directory) {p : Path} {place : Place}
    (hp : t.ending p = .ok (some place)) : t'.ending p = .ok (some place) := by
  obtain ⟨parent, name, hparent, hdirectory, hname, hup, rfl⟩ := ending_eq_some hp
  have hwalk : t'.locate p.parent = .ok parent := walk_of_directories h hparent
  rw [ending, hwalk]
  simp [bind, Except.bind, h parent hdirectory, hname, hup]

/-! Directories on the way. -/

theorem makeDirectory_sameFiles {t t' : FileTree} {p : Path} (h : t.makeDirectory p = .ok t') :
    t.SameFiles t' := by
  rw [makeDirectory] at h
  cases he : t.ending p with
  | error e =>
    rw [he] at h
    cases h
  | ok place =>
    rw [he] at h
    cases place with
    | none => cases h
    | some place =>
      simp only [bind, Except.bind] at h
      cases hfree : t.at? place with
      | some entry =>
        rw [hfree] at h
        cases h
      | none =>
        rw [hfree] at h
        cases h
        exact sameFiles_put_directory (ending_ne_nil he) hfree

/-- Making directories changes no file, however far it comes. -/
theorem makeDirectoriesFrom_sameFiles (t : FileTree) (parts : List String) :
    t.SameFiles (t.makeDirectoriesFrom parts).1 := by
  have hthere : ∀ (t : FileTree) (p : Path) (e : FileError), (t.unlessThere p e).1 = t := by
    intro t p e
    rw [unlessThere]
    split <;> rfl
  induction parts with
  | nil => exact SameFiles.refl t
  | cons name above ih =>
    rw [makeDirectoriesFrom]
    split
    · next t' h => exact makeDirectory_sameFiles h
    · split
      · next t' e h =>
        rw [h] at ih
        exact ih
      · next t' h =>
        rw [h] at ih
        split
        · next t'' h' => exact ih.trans (makeDirectory_sameFiles h')
        · exact ih
        · rw [hthere]
          exact ih
    · rw [hthere]
      exact SameFiles.refl t

theorem makeDirectories_sameFiles (t : FileTree) (p : Path) : t.SameFiles (t.makeDirectories p).1 :=
  makeDirectoriesFrom_sameFiles t _

/-! Temporary files. -/

theorem temporaryName_injective {name : String} {m n : Nat}
    (h : temporaryName name m = temporaryName name n) : m = n := by
  rw [temporaryName, temporaryName, String.append_left_inj, String.append_right_inj] at h
  exact Nat.repr_injective h

/-- Looking for a free place passes taken ones only, and stops at a free one unless it looked at all. -/
theorem freePlace_spec (t : FileTree) (directory : Place) (name : String) (fuel n : Nat) :
    ∃ j ≤ fuel, t.freePlace directory name fuel n = directory ++ [temporaryName name (n + j)] ∧
      (∀ i < j, (t.at? (directory ++ [temporaryName name (n + i)])).isSome = true) ∧
      (j < fuel → t.at? (directory ++ [temporaryName name (n + j)]) = none) := by
  induction fuel generalizing n with
  | zero => exact ⟨0, Nat.le_refl 0, rfl, nofun, nofun⟩
  | succ fuel ih =>
    rw [freePlace]
    cases hn : (t.at? (directory ++ [temporaryName name n])).isSome with
    | false =>
      refine ⟨0, Nat.zero_le _, by simp, nofun, fun _ => ?_⟩
      simpa using hn
    | true =>
      obtain ⟨j, hj, heq, htaken, hfree⟩ := ih (n + 1)
      refine ⟨j + 1, by omega, ?_, ?_, ?_⟩
      · rw [if_pos rfl, heq]
        congr 3
        omega
      · intro i hi
        cases i with
        | zero => exact hn
        | succ i =>
          have ht := htaken i (by omega)
          rwa [show n + 1 + i = n + (i + 1) by omega] at ht
      · intro hlt
        have hf := hfree (by omega)
        rwa [show n + 1 + j = n + (j + 1) by omega] at hf

theorem mem_keys_of_lookup {entries : List (Place × Entry)} {q : Place}
    (h : (entries.lookup q).isSome = true) : q ∈ entries.map Prod.fst := by
  induction entries with
  | nil => cases h
  | cons x entries ih =>
    rw [List.lookup_cons] at h
    by_cases hq : q = x.1
    · simp [hq]
    · rw [beq_false_of_ne hq] at h
      exact .tail _ (ih h)

/-- Among more names than there are entries one is free. -/
theorem at?_freePlace (t : FileTree) (directory : Place) (name : String) (n : Nat) :
    t.at? (t.freePlace directory name (t.entries.length + 1) n) = none := by
  obtain ⟨j, hj, heq, htaken, hfree⟩ := t.freePlace_spec directory name (t.entries.length + 1) n
  rw [heq]
  by_cases hlt : j < t.entries.length + 1
  · exact hfree hlt
  · exfalso
    let places := (List.range (t.entries.length + 1)).map
      fun i => directory ++ [temporaryName name (n + i)]
    have hsub : places ⊆ t.entries.map Prod.fst := by
      intro q hq
      obtain ⟨i, hi, rfl⟩ := List.mem_map.mp hq
      have ht := htaken i (by have := List.mem_range.mp hi; omega)
      rw [at?, if_neg (by simp)] at ht
      exact mem_keys_of_lookup ht
    have hnodup : places.Nodup := by
      apply List.Nodup.map _ List.nodup_range
      intro a b hab
      simp only [List.append_cancel_left_eq, List.cons.injEq, and_true] at hab
      have := temporaryName_injective hab
      omega
    have hle := (List.subperm_of_subset hnodup hsub).length_le
    simp only [places, List.length_map, List.length_range] at hle
    omega

theorem writeTemporary_eq_ok {t t' : FileTree} {p : Path} {bytes : ByteArray} {place : Place}
    (h : t.writeTemporary p bytes = .ok (t', place)) :
    place ≠ [] ∧ t.at? place = none ∧ t' = t.put place (.file bytes) := by
  rw [writeTemporary] at h
  cases hl : t.locate p.parent with
  | error e =>
    rw [hl] at h
    cases h
  | ok directory =>
    rw [hl] at h
    simp only [bind, Except.bind] at h
    cases he : t.at? directory with
    | none =>
      rw [he] at h
      cases h
    | some entry =>
      cases entry with
      | file bytes =>
        rw [he] at h
        cases h
      | directory =>
        rw [he] at h
        cases h
        refine ⟨?_, at?_freePlace t _ _ 0, rfl⟩
        obtain ⟨j, -, hj, -⟩ := t.freePlace_spec directory (p.parts.getLast?.getD "")
          (t.entries.length + 1) 0
        rw [hj]
        simp

theorem moveFile_eq_ok {t t' : FileTree} {place : Place} {p : Path}
    (h : t.moveFile place p = .ok t') :
    ∃ target e, t.ending p = .ok (some target) ∧ t.at? target ≠ some .directory ∧
      t.at? place = some e ∧ t' = (t.erase place).put target e := by
  rw [moveFile] at h
  cases he : t.ending p with
  | error e =>
    rw [he] at h
    cases h
  | ok target =>
    rw [he] at h
    cases target with
    | none => cases h
    | some target =>
      simp only [bind, Except.bind] at h
      split at h
      · cases h
      · next e hplace hno =>
        cases h
        exact ⟨target, e, rfl, fun hd => hno hd, hplace, rfl⟩
      · cases h

/-! Writing a file in one go. -/

/-- A file that takes its name from beside it replaces the file at the path and nothing else. -/
theorem replaced_of_moveFile {t t' : FileTree} {place : Place} {p : Path} {bytes : ByteArray}
    (hne : place ≠ []) (hfree : t.at? place = none)
    (h : (t.put place (.file bytes)).moveFile place p = .ok t') : t.Replaced t' p bytes := by
  obtain ⟨target, e, hending, hno, he, rfl⟩ := moveFile_eq_ok h
  have htarget := ending_ne_nil hending
  rw [at?_put t hne, if_pos rfl] at he
  cases he
  have hafter : ∀ q, (((t.put place (.file bytes)).erase place).put target (.file bytes)).at? q =
      if q = target then some (.file bytes) else t.at? q := by
    intro q
    rw [at?_put _ htarget, at?_erase _ hne, at?_put t hne]
    by_cases hq : q = place
    · rw [if_pos hq, hq, hfree]
    · rw [if_neg hq, if_neg hq]
  refine ⟨target, ?_, ?_, fun q hq => ?_⟩
  · apply locate_of_ending _ hending
    intro q hd
    rw [hafter]
    by_cases hq : q = target
    · exact absurd (hq ▸ hd) hno
    · rw [if_neg hq]
      rw [at?_put t hne] at hd
      split at hd
      · cases hd
      · exact hd
  · rw [content?, hafter, if_pos rfl]
  · exact content?_congr (by rw [hafter, if_neg hq])

/-- The content of a file is put in place as a whole, or no file is changed. -/
theorem writeWhole_spec (t : FileTree) (p : Path) (bytes : ByteArray) :
    match t.writeWhole p bytes with
    | (t', .ok ()) => t.Replaced t' p bytes
    | (t', .error _) => t.SameFiles t' := by
  have hmade := t.makeDirectories_sameFiles p.parent
  rw [writeWhole]
  rcases hm : t.makeDirectories p.parent with ⟨made, e | _⟩
  · rw [hm] at hmade
    exact hmade
  · rw [hm] at hmade
    dsimp only at hmade ⊢
    cases hw : made.writeTemporary p bytes with
    | error e => exact hmade
    | ok x =>
      obtain ⟨written, place⟩ := x
      obtain ⟨hne, hfree, rfl⟩ := writeTemporary_eq_ok hw
      dsimp only
      cases hmove : (made.put place (.file bytes)).moveFile place p with
      | ok t' => exact hmade.replaced (replaced_of_moveFile hne hfree hmove)
      | error e =>
        -- the temporary file is erased again
        refine hmade.trans fun q => content?_congr ?_
        rw [at?_erase _ hne, at?_put made hne]
        by_cases hq : q = place
        · rw [if_pos hq, hq, hfree]
        · rw [if_neg hq, if_neg hq]

/-! Writing a file again. -/

/-- No directory is made where there are all of them. -/
theorem makeDirectories_there {t : FileTree} {p : Path} {place : Place} (h : t.locate p = .ok place)
    (hdirectory : t.at? place = some .directory) : t.makeDirectories p = (t, .ok ()) := by
  have hthere : t.hasDirectory p = true := by rw [hasDirectory, h]; simp [hdirectory]
  rw [makeDirectories]
  cases hparts : p.parts.reverse with
  | nil => rfl
  | cons name above =>
    have hp : (⟨(name :: above).reverse⟩ : Path) = p := by rw [← hparts, List.reverse_reverse]
    have hsplit : p.parts = above.reverse ++ [name] := by
      rw [← List.reverse_reverse p.parts, hparts, List.reverse_cons]
    have hoccupied : t.makeDirectory p = .error .occupied := by
      rw [locate, hsplit, walk_append] at h
      cases hparent : t.walk [] above.reverse with
      | error e =>
        rw [hparent] at h
        cases h
      | ok parent =>
        have hlocate : t.locate p.parent = .ok parent := by
          rw [locate, Path.parent, hsplit, List.dropLast_concat]
          exact hparent
        rw [hparent] at h
        simp only [Except.bind, walk] at h
        split at h
        · cases h
        · cases h
        · next hd =>
          cases h
          rw [makeDirectory, ending, hlocate, hsplit, List.getLast?_concat]
          simp only [bind, Except.bind, hd]
          cases hup : name == up with
          | true => rfl
          | false =>
            rw [hup, if_neg (by simp)] at hdirectory
            simp only [Bool.false_eq_true, if_false, hdirectory]
    rw [makeDirectoriesFrom, hp, hoccupied]
    simp only [unlessThere, hthere, if_true]

/-- A file is put in place wherever a path ends and there is no directory. -/
theorem exists_writeWhole {t : FileTree} {p : Path} {target : Place}
    (hending : t.ending p = .ok (some target)) (hno : t.at? target ≠ some .directory)
    (bytes : ByteArray) : ∃ t', t.writeWhole p bytes = (t', .ok ()) := by
  obtain ⟨parent, name, hparent, hdirectory, -, -, -⟩ := ending_eq_some hending
  have hwritten : ∃ x, t.writeTemporary p bytes = .ok x := by
    rw [writeTemporary, hparent]
    simp only [bind, Except.bind, hdirectory]
    exact ⟨_, rfl⟩
  obtain ⟨⟨written, place⟩, hwritten⟩ := hwritten
  obtain ⟨hne, hfree, rfl⟩ := writeTemporary_eq_ok hwritten
  have hkept : ∀ q, t.at? q = some .directory →
      (t.put place (.file bytes)).at? q = some .directory := by
    intro q hq
    rw [at?_put t hne, if_neg]
    · exact hq
    · rintro rfl
      rw [hfree] at hq
      cases hq
  have hmoved : ∃ t', (t.put place (.file bytes)).moveFile place p = .ok t' := by
    have hfile : (t.put place (.file bytes)).at? place = some (.file bytes) := by
      rw [at?_put t hne, if_pos rfl]
    have htarget : (t.put place (.file bytes)).at? target ≠ some .directory := by
      rw [at?_put t hne]
      split
      · nofun
      · exact hno
    rw [moveFile, ending_of_directories hkept hending]
    simp only [bind, Except.bind, hfile]
    exact ⟨_, rfl⟩
  obtain ⟨t', hmoved⟩ := hmoved
  refine ⟨t', ?_⟩
  rw [writeWhole, makeDirectories_there hparent hdirectory]
  dsimp only
  rw [hwritten]
  dsimp only
  rw [hmoved]

/-- What was put in place can be replaced. -/
theorem writeWhole_again {t t' : FileTree} {p : Path} {bytes : ByteArray}
    (h : t.writeWhole p bytes = (t', .ok ())) (again : ByteArray) :
    ∃ t'', t'.writeWhole p again = (t'', .ok ()) := by
  rw [writeWhole] at h
  rcases hm : t.makeDirectories p.parent with ⟨made, e | _⟩
  · rw [hm] at h
    cases h
  rw [hm] at h
  dsimp only at h
  cases hw : made.writeTemporary p bytes with
  | error e =>
    rw [hw] at h
    cases h
  | ok x =>
    obtain ⟨written, place⟩ := x
    obtain ⟨hne, hfree, rfl⟩ := writeTemporary_eq_ok hw
    rw [hw] at h
    dsimp only at h
    cases hmove : (made.put place (.file bytes)).moveFile place p with
    | error e =>
      rw [hmove] at h
      cases h
    | ok moved =>
      rw [hmove] at h
      cases h
      obtain ⟨target, e, hending, hno, he, rfl⟩ := moveFile_eq_ok hmove
      rw [at?_put made hne, if_pos rfl] at he
      cases he
      refine @exists_writeWhole _ _ target (ending_of_directories (fun q hq => ?_) hending) ?_ again
      · rw [at?_put _ (ending_ne_nil hending), if_neg, at?_erase _ hne, if_neg]
        · exact hq
        · rintro rfl
          rw [at?_put made hne, if_pos rfl] at hq
          cases hq
        · rintro rfl
          exact hno hq
      · rw [at?_put _ (ending_ne_nil hending), if_pos rfl]
        nofun

end Manifest.FileTree
