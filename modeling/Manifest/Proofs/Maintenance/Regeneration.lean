import Manifest.Proofs.Document.Root
import Manifest.Proofs.FileTree
import Manifest.Proofs.Maintenance.Settling

/-! Making a manifest anew: which entries of the existing file the new one has. Of those that the
template lacks it has all, and in their order, exactly when no two of them are the same; otherwise it
has fewer. -/

set_option autoImplicit false

namespace Manifest

open Manifest.Action (Gives gives_bind_iff gives_record_iff gives_ofExcept_iff gives_pure_iff gives_tree_iff)

/-- The entries of an existing section that no entry of a template's section is the same as. -/
def unmatched (same : Match) (own existing : List Element) : List Element :=
  existing.filter fun e => !own.any (same · e)

theorem newcomers_unmatched {same : Match} (present own existing : List Element)
    (hsub : ∀ e ∈ own, e ∈ present) :
    newcomers same id present (unmatched same own existing) = newcomers same id present existing := by
  induction existing generalizing present with
  | nil => rfl
  | cons e existing ih =>
    rw [unmatched, List.filter_cons]
    cases hown : own.any (same · e) with
    | true =>
      have hpresent : present.any (same · e) = true := by
        obtain ⟨x, hx, hs⟩ := List.any_eq_true.mp hown
        exact List.any_eq_true.mpr ⟨x, hsub x hx, hs⟩
      simp only [Bool.not_true, Bool.false_eq_true, if_false]
      rw [newcomers_cons, id, if_pos hpresent]
      exact ih present hsub
    | false =>
      simp only [Bool.not_false, if_true]
      rw [newcomers_cons, newcomers_cons]
      have ih₁ := ih present hsub
      have ih₂ := ih (present ++ [id e]) fun x hx => List.mem_append_left _ (hsub x hx)
      rw [unmatched] at ih₁ ih₂
      rw [ih₁, ih₂]

theorem newcomers_sublist_unmatched (same : Match) (own existing : List Element) :
    (newcomers same id own existing).Sublist (unmatched same own existing) := by
  rw [← newcomers_unmatched own own existing fun _ h => h]
  exact newcomers_sublist own _

/-- All that is unmatched is new exactly when no two of it are the same. -/
theorem newcomers_eq_unmatched_iff (same : Match) (own existing : List Element) :
    newcomers same id own existing = unmatched same own existing ↔
      (unmatched same own existing).Pairwise fun a b => same a b = false := by
  constructor
  · intro h
    rw [← h]
    exact newcomers_pairwise own existing
  · intro h
    rw [← newcomers_unmatched own own existing fun _ h => h]
    apply newcomers_eq_self _ h
    intro e he c hc
    have hno := (List.mem_filter.mp hc).2
    simp only [Bool.not_eq_true', List.any_eq_false] at hno
    simpa using hno e he

/-- A document that is read from a source. -/
theorem gives_recordRead {r : Except ReadError Document} {source : String} {w w' : World}
    {d : Document} (h : Gives (Document.recordRead r source) w d w') :
    r = .ok d ∧ w'.tree = w.tree := by
  simp only [Document.recordRead, gives_bind_iff, gives_ofExcept_iff, gives_record_iff,
    gives_pure_iff] at h
  obtain ⟨d', w₁, ⟨hr, rfl⟩, -, w₂, hw₂, rfl, rfl⟩ := h
  exact ⟨hr, by rw [hw₂]⟩

/-- A document that is loaded from a file. -/
theorem gives_load {p : Path} {w w' : World} {d : Document}
    (h : Gives (Document.load p) w d w') :
    ∃ bytes, w.tree.read p = .ok bytes ∧ readBytes bytes (some p.text) = .ok d ∧
      w'.tree = w.tree := by
  simp only [Document.load, gives_bind_iff, gives_tree_iff, gives_ofExcept_iff,
    gives_record_iff] at h
  obtain ⟨tree, w₁, ⟨rfl, rfl⟩, bytes, w₂, ⟨hread, rfl⟩, -, w₃, hw₃, h⟩ := h
  obtain ⟨hd, htree⟩ := gives_recordRead h
  exact ⟨bytes, hread, hd, by rw [htree, hw₃]⟩

/-- Where the text of a template comes from. -/
def templateSource (p : Path) : String :=
  "<template for " ++ p.text ++ ">"

namespace Maintainer

theorem gives_keepAll {p : Path} {existing new d : Document}
    {sections : List (List String × Identity)} {w w' : World}
    (h : Gives (sections.foldlM (fun new (path, identity) => keep p existing new path identity) new)
      w d w') :
    d = Document.keepingAll existing new sections ∧ w'.tree = w.tree := by
  induction sections generalizing new w with
  | nil =>
    obtain ⟨rfl, rfl⟩ := gives_pure_iff.mp h
    exact ⟨rfl, rfl⟩
  | cons s sections ih =>
    rw [List.foldlM_cons, gives_bind_iff] at h
    obtain ⟨new', w₁, hkeep, hrest⟩ := h
    obtain ⟨rfl, htree₁⟩ := gives_keep hkeep
    obtain ⟨hd, htree⟩ := ih hrest
    exact ⟨hd, by rw [htree, htree₁]⟩

theorem exists_keepAll {p : Path} {existing new : Document} {top : Element}
    (htop : existing.root? = some top) {root : Element} (hroot : new.root? = some root)
    (sections : List (List String × Identity)) (w : World) :
    ∃ w', Gives (sections.foldlM (fun new (path, identity) => keep p existing new path identity) new)
      w (Document.keepingAll existing new sections) w' := by
  induction sections generalizing new root w with
  | nil => exact ⟨w, gives_pure_iff.mpr ⟨rfl, rfl⟩⟩
  | cons s sections ih =>
    obtain ⟨d, w₁, hkeep⟩ := exists_keep htop hroot s.1 s.2 w
    obtain ⟨rfl, -⟩ := gives_keep hkeep
    obtain ⟨root', hroot', -⟩ := Document.root?_keeping hroot s.1 s.2.same (existing.sectionAt? s.1)
    obtain ⟨w', hrest⟩ := ih hroot' w₁
    exact ⟨w', by rw [List.foldlM_cons]; exact gives_bind_iff.mpr ⟨_, _, hkeep, hrest⟩⟩

/-- Making anew the manifest in a file that is there: what is read, kept and written. -/
theorem gives_regenerate {m : Maintainer} {p : Path} {template : String} {d : Document}
    {w w' : World} (h : Gives (m.regenerate p template) w d w') (hfile : w.tree.has p = true) :
    ∃ t bytes x w₁, readText template (some (templateSource p)) = .ok t ∧
      w.tree.read p = .ok bytes ∧ readBytes bytes (some p.text) = .ok x ∧ w₁.tree = w.tree ∧
      Gives (m.write (Document.keepingAll x t keptSections) p) w₁ d w' := by
  rw [regenerate, gives_bind_iff] at h
  obtain ⟨t, w₁, ht, h⟩ := h
  obtain ⟨ht, htree₁⟩ := gives_recordRead (gives_store_iff.mp ht)
  simp only [gives_bind_iff, gives_tree_iff] at h
  obtain ⟨tree, w₂, ⟨rfl, rfl⟩, h⟩ := h
  rw [htree₁, hfile, if_pos rfl, gives_bind_iff] at h
  obtain ⟨x, w₃, hx, h⟩ := h
  obtain ⟨bytes, hread, hx, htree₃⟩ := gives_load (gives_store_iff.mp hx)
  rw [gives_bind_iff] at h
  obtain ⟨new, w₄, hkeep, h⟩ := h
  obtain ⟨rfl, htree₄⟩ := gives_keepAll hkeep
  rw [htree₁] at hread
  exact ⟨t, bytes, x, w₄, ht, hread, hx, by rw [htree₄, htree₃, htree₁], h⟩

/-- The same with what is read given. -/
theorem gives_regenerate_of_read {m : Maintainer} {p : Path} {template : String} {t x d : Document}
    {w w' : World} {bytes : ByteArray} (ht : readText template (some (templateSource p)) = .ok t)
    (hbytes : w.tree.read p = .ok bytes) (hx : readBytes bytes (some p.text) = .ok x)
    (hrun : Gives (m.regenerate p template) w d w') :
    ∃ w₁, w₁.tree = w.tree ∧ Gives (m.write (Document.keepingAll x t keptSections) p) w₁ d w' := by
  obtain ⟨t', bytes', x', w₁, ht', hbytes', hx', htree, hwrite⟩ :=
    gives_regenerate hrun (FileTree.has_of_read hbytes)
  rw [ht] at ht'
  rw [hbytes] at hbytes'
  cases ht'
  cases hbytes'
  rw [hx] at hx'
  cases hx'
  exact ⟨w₁, htree, hwrite⟩

end Maintainer

/--
What should be kept of a section of an existing document: behind the template's own entries stand all
that none of these is the same as, each as it is written, in their order.
-/
def EntriesKept (m : Maintainer) (same : Match) (t x d : Document) (path : List String) : Prop :=
  d.entriesAt path =
    (t.entriesAt path ++ unmatched same (t.entriesAt path) (x.entriesAt path)).map m.settled

section
variable {m : Maintainer} {p : Path} {template : String} {w w' : World} {t x d : Document}
  {bytes : ByteArray} {s : List String × Identity}

/-- A section of a manifest that was made anew: the template's own entries and the newcomers. -/
theorem entriesAt_of_regenerate
    (ht : readText template (some (templateSource p)) = .ok t)
    (hroot : ∀ root ∈ t.root?, root.name ∉ crossingRoots)
    (hbytes : w.tree.read p = .ok bytes) (hx : readBytes bytes (some p.text) = .ok x)
    (hrun : Gives (m.regenerate p template) w d w') (hs : s ∈ Maintainer.keptSections) :
    d.entriesAt s.1 =
      (t.entriesAt s.1 ++
        newcomers s.2.same id (t.entriesAt s.1) (x.entriesAt s.1)).map m.settled := by
  obtain ⟨w₁, -, hwrite⟩ := Maintainer.gives_regenerate_of_read ht hbytes hx hrun
  obtain ⟨root, hr⟩ := exists_root_of_readText ht
  rw [(Maintainer.gives_write hwrite).1, Maintainer.entriesAt_settledDocument,
    Document.entriesAt_keepingAll hr (keptSections_part (hroot root hr)) hs]

/-- All that should be kept is kept if it is new all of it; otherwise there is less. -/
theorem entriesKept_iff_newcomers {same : Match} {path : List String}
    (h : d.entriesAt path =
      (t.entriesAt path ++ newcomers same id (t.entriesAt path) (x.entriesAt path)).map m.settled) :
    (EntriesKept m same t x d path ↔
        newcomers same id (t.entriesAt path) (x.entriesAt path) =
          unmatched same (t.entriesAt path) (x.entriesAt path)) ∧
      (¬ EntriesKept m same t x d path →
        (d.entriesAt path).length < (t.entriesAt path).length +
          (unmatched same (t.entriesAt path) (x.entriesAt path)).length) := by
  have hsub := newcomers_sublist_unmatched same (t.entriesAt path) (x.entriesAt path)
  have hlength : (d.entriesAt path).length = (t.entriesAt path).length +
      (newcomers same id (t.entriesAt path) (x.entriesAt path)).length := by
    rw [h, List.length_map, List.length_append]
  have hiff : EntriesKept m same t x d path ↔
      newcomers same id (t.entriesAt path) (x.entriesAt path) =
        unmatched same (t.entriesAt path) (x.entriesAt path) := by
    constructor
    · intro hkept
      rw [EntriesKept] at hkept
      apply hsub.eq_of_length
      have hl := congrArg List.length hkept
      rw [List.length_map, List.length_append, hlength] at hl
      omega
    · intro hall
      rw [EntriesKept, h, hall]
  refine ⟨hiff, fun hnot => ?_⟩
  rw [hlength]
  have hne : (newcomers same id (t.entriesAt path) (x.entriesAt path)).length ≠
      (unmatched same (t.entriesAt path) (x.entriesAt path)).length :=
    fun heq => hnot (hiff.mpr (hsub.eq_of_length heq))
  have hle := hsub.length_le
  omega

/--
Making a manifest anew keeps all entries of a section that the template lacks exactly when no two of
them are the same. Otherwise the section has fewer entries. The root of the template may not have the
name of a section itself.
-/
theorem entriesKept_iff_pairwise
    (ht : readText template (some (templateSource p)) = .ok t)
    (hroot : ∀ root ∈ t.root?, root.name ∉ crossingRoots)
    (hbytes : w.tree.read p = .ok bytes) (hx : readBytes bytes (some p.text) = .ok x)
    (hrun : Gives (m.regenerate p template) w d w') (hs : s ∈ Maintainer.keptSections) :
    (EntriesKept m s.2.same t x d s.1 ↔
        (unmatched s.2.same (t.entriesAt s.1) (x.entriesAt s.1)).Pairwise
          fun a b => s.2.same a b = false) ∧
      (¬ EntriesKept m s.2.same t x d s.1 →
        (d.entriesAt s.1).length < (t.entriesAt s.1).length +
          (unmatched s.2.same (t.entriesAt s.1) (x.entriesAt s.1)).length) := by
  have h := entriesKept_iff_newcomers (entriesAt_of_regenerate ht hroot hbytes hx hrun hs)
  rw [newcomers_eq_unmatched_iff] at h
  exact h

end

/-- A world with one file. -/
def oneFile (text : String) : World :=
  { tree := ⟨[(["pom.xml"], .file text.toUTF8)]⟩ }

/-- A manifest with two modules that are not the same. -/
def twoModules : String :=
  "<project><modules><module>a</module><module>b</module></modules></project>"

set_option maxRecDepth 10000 in
theorem entriesKept_twoModules :
    ∃ t x w' d, readText "<project/>" (some (templateSource ⟨["pom.xml"]⟩)) = .ok t ∧
      (∀ root ∈ t.root?, root.name ∉ crossingRoots) ∧
      (oneFile twoModules).tree.read ⟨["pom.xml"]⟩ = .ok twoModules.toUTF8 ∧
      readBytes twoModules.toUTF8 (some (Path.text ⟨["pom.xml"]⟩)) = .ok x ∧
      Gives (Maintainer.regenerate {} ⟨["pom.xml"]⟩ "<project/>") (oneFile twoModules) d w' ∧
      EntriesKept {} Identity.module.same t x d ["modules"] := by
  have ht := eq_ok_getD (readText "<project/>" (some (templateSource ⟨["pom.xml"]⟩))) {}
    (by decide +kernel)
  have hx := eq_ok_getD (readBytes twoModules.toUTF8 (some (Path.text ⟨["pom.xml"]⟩))) {}
    (by decide +kernel)
  have hroot : ∀ root ∈ ((readText "<project/>"
      (some (templateSource ⟨["pom.xml"]⟩))).toOption.getD {}).root?, root.name ∉ crossingRoots := by
    decide +kernel
  have hrun := Action.gives_resultD (a := Maintainer.regenerate {} ⟨["pom.xml"]⟩ "<project/>")
    (w := oneFile twoModules) {} (by decide +kernel)
  have hiff := (entriesKept_iff_pairwise (s := (["modules"], .module)) ht hroot rfl hx hrun
    (by decide)).1
  exact ⟨_, _, _, _, ht, hroot, rfl, hx, hrun, hiff.mpr (by decide +kernel)⟩

/-- A manifest with two plugins of one name, of which only the second one says its group. -/
def twoPlugins : String :=
  "<project><build><plugins><plugin><artifactId>a</artifactId></plugin><plugin>" ++
    "<groupId>g</groupId><artifactId>a</artifactId></plugin></plugins></build></project>"

set_option maxRecDepth 10000 in
/-- The plugin that says its group is lost: the one before it is in its way, not the template. -/
theorem plugin_not_kept :
    ∃ t x w' d, readText "<project/>" (some (templateSource ⟨["pom.xml"]⟩)) = .ok t ∧
      (oneFile twoPlugins).tree.read ⟨["pom.xml"]⟩ = .ok twoPlugins.toUTF8 ∧
      readBytes twoPlugins.toUTF8 (some (Path.text ⟨["pom.xml"]⟩)) = .ok x ∧
      Gives (Maintainer.regenerate {} ⟨["pom.xml"]⟩ "<project/>") (oneFile twoPlugins) d w' ∧
      (["build", "plugins"], Identity.plugin) ∈ Maintainer.keptSections ∧
      ¬ EntriesKept {} Identity.plugin.same t x d ["build", "plugins"] := by
  have ht := eq_ok_getD (readText "<project/>" (some (templateSource ⟨["pom.xml"]⟩))) {}
    (by decide +kernel)
  have hx := eq_ok_getD (readBytes twoPlugins.toUTF8 (some (Path.text ⟨["pom.xml"]⟩))) {}
    (by decide +kernel)
  have hrun := Action.gives_resultD (a := Maintainer.regenerate {} ⟨["pom.xml"]⟩ "<project/>")
    (w := oneFile twoPlugins) {} (by decide +kernel)
  have hsection := entriesAt_of_regenerate (s := (["build", "plugins"], .plugin)) ht
    (by decide +kernel) rfl hx hrun (by decide)
  refine ⟨_, _, _, _, ht, rfl, hx, hrun, by decide, fun hkept => ?_⟩
  -- one newcomer where there should be two
  have hlength := congrArg List.length ((entriesKept_iff_newcomers hsection).1.mp hkept)
  revert hlength
  decide +kernel

end Manifest
