import Manifest.Proofs.Action
import Manifest.Proofs.Traversal
import Manifest.Proofs.Yaml
import Manifest.Settings
import Mathlib.Data.Set.Defs

/-!
Settings that are read. Which files keep settings from being read at all, and what the settings of writing are
once they have been read: what a table in the user's file says, and else what holds unless a file says
otherwise. A list of pairs says something, too, although it is no table.
-/

set_option autoImplicit false

namespace Manifest.Settings

open Yaml (Value Entries)
open Action (Gives NeverFails)

variable {tree : FileTree} {p : Path} {text : String} {key : String}

/-! ### What files hold, and what is promised of them -/

/-- Whether the file at a path holds a text, with line ends of every kind as single line feeds. -/
def HoldsText (tree : FileTree) (p : Path) (text : String) : Prop :=
  ∃ bytes s, tree.read p = .ok bytes ∧ Text.Encoding.utf8.decode bytes = some s ∧
    text = String.ofList (Text.unifyLineEnds s.toList)

/-- Whether the file at a path holds a value. -/
def Holds (tree : FileTree) (p : Path) (v : Value) : Prop :=
  ∃ text, HoldsText tree p text ∧ Yaml.read text = .ok v

/-- The pairs that a value lists, if it is a list or a set of pairs. -/
def Lists (v : Value) (pairs : Entries) : Prop :=
  ∃ items, (v = .list items ∨ v = .set items) ∧
    List.Forall₂ (fun item pair => pairOf (itemIn items item) = .ok pair) items pairs

/-- Whether the file at a path keeps settings from being read. -/
inductive Breaks (tree : FileTree) (p : Path) : Prop
  /-- Its bytes are no text. -/
  | bytes {bytes : ByteArray} (hfile : tree.read p = .ok bytes)
      (hbytes : Text.Encoding.utf8.decode bytes = none)
  /-- Its text is not malformed, but a value in it cannot be made. -/
  | fault {text : String} {f : Yaml.Fault} (htext : HoldsText tree p text)
      (hread : Yaml.read text = .error f) (hf : f ≠ .malformed)
  /-- It holds something that counts as true, and is neither a table nor a list of pairs. -/
  | shape {v : Value} (hv : Holds tree p v) (htrue : v.isTrue = true) (htable : ∀ entries, v ≠ .table entries)
      (hpairs : ∀ pairs, ¬ Lists v pairs)

/-- The value that a setting of writing has unless a file says otherwise. -/
def default? (key : String) : Option Value :=
  (Entries.get? Topic.serialization.defaults key).or (Entries.get? serializationBasis key)

example : (default? "indent").any (·.sameKey (.text "  ")) = true := by decide +kernel

/-- What is promised for a setting of writing. -/
inductive IsPromised (tree : FileTree) (p : Path) (key : String) : Option Value → Prop
  /-- The file holds a table with the key. -/
  | user {entries : Entries} {v : Value} (htable : Holds tree p (.table entries))
      (hkey : entries.get? key = some v) : IsPromised tree p key (some v)
  /-- It holds no such table. -/
  | default (hno : ∀ entries, Holds tree p (.table entries) → Entries.get? entries key = none) :
      IsPromised tree p key (default? key)

/-- Whether the file at a path lists pairs, the last of which for a key changes its value. -/
def Overrides (tree : FileTree) (p : Path) (key : String) : Prop :=
  ∃ v pairs value, Holds tree p v ∧ Lists v pairs ∧ Entries.get? pairs.reverse key = some value ∧
    default? key ≠ some value

theorem HoldsText.unique {text' : String} (h : HoldsText tree p text) (h' : HoldsText tree p text') :
    text = text' := by
  obtain ⟨bytes, s, hread, hs, rfl⟩ := h
  obtain ⟨bytes', s', hread', hs', rfl⟩ := h'
  cases hread.symm.trans hread'
  cases hs.symm.trans hs'
  rfl

theorem Holds.unique {v v' : Value} (h : Holds tree p v) (h' : Holds tree p v') : v = v' := by
  obtain ⟨text, htext, hread⟩ := h
  obtain ⟨text', htext', hread'⟩ := h'
  cases htext.unique htext'
  exact Except.ok.inj (hread.symm.trans hread')

theorem Holds.readFile_eq {v : Value} (h : Holds tree p v) : readFile tree p = (entriesOf v).map some := by
  obtain ⟨text, ⟨bytes, s, hfile, hs, rfl⟩, hread⟩ := h
  simp only [readFile, hfile, hs, hread]

theorem HoldsText.readFile_of_fault {f : Yaml.Fault} (h : HoldsText tree p text)
    (hread : Yaml.read text = .error f) (hf : f ≠ .malformed) : readFile tree p = .error (.value f) := by
  obtain ⟨bytes, s, hfile, hs, rfl⟩ := h
  simp only [readFile, hfile, hs, hread]

/-- What has been read of a file is nothing, or the entries of the value that it holds. -/
theorem readFile_cases {found : Option Entries} (h : readFile tree p = .ok found) :
    (found = none ∧ ∀ v, ¬ Holds tree p v) ∨
      ∃ v entries, Holds tree p v ∧ entriesOf v = .ok entries ∧ found = some entries := by
  by_cases hholds : ∃ v, Holds tree p v
  · obtain ⟨v, hv⟩ := hholds
    rw [hv.readFile_eq] at h
    obtain ⟨entries, hentries, rfl⟩ := map_eq_ok.mp h
    exact .inr ⟨v, entries, hv, hentries, rfl⟩
  · refine .inl ⟨?_, not_exists.mp hholds⟩
    unfold readFile at h
    split at h
    case h_1 => exact (Except.ok.inj h).symm
    case h_2 bytes hfile =>
      split at h
      case h_1 => cases h
      case h_2 s hs =>
        split at h
        case h_1 => exact (Except.ok.inj h).symm
        case h_2 => cases h
        case h_3 v hread => exact absurd ⟨v, _, ⟨bytes, s, hfile, hs, rfl⟩, hread⟩ hholds

/-! ### What values say -/

theorem entriesOf_table (entries : Entries) : entriesOf (.table entries) = .ok entries := by
  cases entries <;> rfl

theorem Lists.entriesOf_eq {v : Value} {pairs : Entries} (h : Lists v pairs) : entriesOf v = .ok pairs := by
  obtain ⟨items, hv, hpairs⟩ := h
  cases hpairs with
  | nil => rcases hv with rfl | rfl <;> rfl
  | cons hpair hrest => rcases hv with rfl | rfl <;> exact mapM_eq_ok_iff.mpr (.cons hpair hrest)

/-- A value stands for entries if it counts as false, for none, or is a table, or lists pairs. -/
theorem entriesOf_eq_ok_iff {v : Value} {entries : Entries} :
    entriesOf v = .ok entries ↔
      (v.isTrue = false ∧ entries = []) ∨ v = .table entries ∨ Lists v entries := by
  constructor
  · intro h
    unfold entriesOf at h
    split at h
    case isTrue hfalse => exact .inl ⟨by simpa using hfalse, (Except.ok.inj h).symm⟩
    case isFalse =>
      split at h
      case h_1 => exact .inr (.inl (congrArg Value.table (Except.ok.inj h)))
      case h_2 => exact .inr (.inr ⟨_, .inl rfl, mapM_eq_ok_iff.mp h⟩)
      case h_3 => exact .inr (.inr ⟨_, .inr rfl, mapM_eq_ok_iff.mp h⟩)
      case h_4 => cases h
      case h_5 => cases h
  · rintro (⟨hfalse, rfl⟩ | rfl | hpairs)
    · unfold entriesOf
      rw [hfalse]
      rfl
    · exact entriesOf_table entries
    · exact hpairs.entriesOf_eq

theorem Lists.unique {v : Value} {pairs pairs' : Entries} (h : Lists v pairs) (h' : Lists v pairs') :
    pairs = pairs' :=
  Except.ok.inj (h.entriesOf_eq.symm.trans h'.entriesOf_eq)

theorem Lists.ne_table {v : Value} {pairs entries : Entries} (h : Lists v pairs) : v ≠ .table entries := by
  obtain ⟨items, rfl | rfl, -⟩ := h <;> exact Value.noConfusion

/-- A file breaks the reading of settings exactly if it cannot be read itself. -/
theorem breaks_iff (tree : FileTree) (p : Path) : Breaks tree p ↔ ∃ e, readFile tree p = .error e := by
  constructor
  · intro hbreaks
    cases hbreaks with
    | bytes hfile hbytes => exact ⟨.notText, by simp only [readFile, hfile, hbytes]⟩
    | fault htext hread hf => exact ⟨_, htext.readFile_of_fault hread hf⟩
    | @shape v hv htrue htable hpairs =>
      rw [hv.readFile_eq]
      cases hentries : entriesOf v with
      | error e => exact ⟨e, rfl⟩
      | ok entries =>
        rcases entriesOf_eq_ok_iff.mp hentries with ⟨hfalse, -⟩ | hv | hv
        · exact absurd (hfalse.symm.trans htrue) Bool.false_ne_true
        · exact absurd hv (htable entries)
        · exact absurd hv (hpairs entries)
  · rintro ⟨e, h⟩
    unfold readFile at h
    split at h
    case h_1 => cases h
    case h_2 bytes hfile =>
      split at h
      case h_1 hbytes => exact .bytes hfile hbytes
      case h_2 s hs =>
        split at h
        case h_1 => cases h
        case h_2 f hf hread => exact .fault ⟨bytes, s, hfile, hs, rfl⟩ hread hf
        case h_3 v hread =>
          have hentries : ∀ entries, entriesOf v ≠ .ok entries := fun entries hv => by
            rw [hv] at h
            cases h
          refine .shape ⟨_, ⟨bytes, s, hfile, hs, rfl⟩, hread⟩ ?_ (fun entries hv => ?_) fun pairs hv => ?_
          · by_contra hfalse
            exact hentries [] (entriesOf_eq_ok_iff.mpr (.inl ⟨Bool.eq_false_iff.mpr hfalse, rfl⟩))
          · exact hentries entries (hv ▸ entriesOf_table entries)
          · exact hentries pairs hv.entriesOf_eq

theorem exists_readFile_eq_ok_iff (tree : FileTree) (p : Path) :
    (∃ found, readFile tree p = .ok found) ↔ ¬ Breaks tree p := by
  rw [breaks_iff]
  cases readFile tree p <;> simp

/-! ### Values that are promised -/

theorem isDefinite_defaults (t : Topic) : t.defaults.IsDefinite := by
  unfold Topic.defaults
  split
  case h_1 entries hread => exact Yaml.isDefinite_of_read hread
  case h_2 => exact Entries.isDefinite_nil

/-- A setting of writing has the value that was put over it last, else the one that it has by default. -/
theorem get?_overlay_defaults (entries : Entries) (key : String) :
    Entries.get? (serializationBasis.overlay (Topic.serialization.defaults.overlay entries)) key =
      (Entries.get? entries.reverse key).or (default? key) := by
  rw [Entries.get?_overlay, (isDefinite_defaults _).overlay entries key, Entries.get?_overlay, Option.or_assoc,
    default?]

theorem isPromised_iff_of_no_table (hno : ∀ entries, ¬ Holds tree p (.table entries)) {found : Option Value} :
    IsPromised tree p key found ↔ found = default? key := by
  constructor
  · rintro (⟨htable, -⟩ | -)
    · exact absurd htable (hno _)
    · exact Eq.refl _
  · intro h
    rw [h]
    exact .default fun entries h => absurd h (hno entries)

/-- A table says what is promised. -/
theorem isPromised_of_table {entries : Entries} (h : Holds tree p (.table entries)) (key : String) :
    IsPromised tree p key ((Entries.get? entries.reverse key).or (default? key)) := by
  have hdefinite : entries.IsDefinite := by
    obtain ⟨text, -, hread⟩ := h
    exact Yaml.isDefinite_of_read hread
  rw [hdefinite key]
  cases hkey : Entries.get? entries key with
  | some v => exact .user h hkey
  | none =>
    rw [Option.none_or]
    refine .default fun entries' h' => ?_
    cases h.unique h'
    exact hkey

theorem overrides_iff_of_lists {v : Value} {pairs : Entries} (h : Holds tree p v) (hpairs : Lists v pairs) :
    Overrides tree p key ↔
      ∃ value, Entries.get? pairs.reverse key = some value ∧ default? key ≠ some value := by
  constructor
  · rintro ⟨v', pairs', value, h', hpairs', hvalue⟩
    cases h.unique h'
    cases hpairs.unique hpairs'
    exact ⟨value, hvalue⟩
  · rintro ⟨value, hvalue⟩
    exact ⟨v, pairs, value, h, hpairs, hvalue⟩

/-- Pairs say what is promised unless they change a value. -/
theorem isPromised_of_lists_iff {v : Value} {pairs : Entries} (h : Holds tree p v) (hpairs : Lists v pairs) :
    IsPromised tree p key ((Entries.get? pairs.reverse key).or (default? key)) ↔ ¬ Overrides tree p key := by
  rw [isPromised_iff_of_no_table fun entries htable => hpairs.ne_table (h.unique htable),
    overrides_iff_of_lists h hpairs]
  cases Entries.get? pairs.reverse key with
  | none =>
    refine iff_of_true Option.none_or ?_
    rintro ⟨_, hvalue, -⟩
    cases hvalue
  | some value =>
    rw [Option.some_or]
    constructor
    · rintro hdefault ⟨_, hvalue, hother⟩
      exact hother (hdefault.symm.trans hvalue)
    · intro hno
      by_contra hother
      exact hno ⟨value, rfl, fun heq => hother heq.symm⟩

theorem isPromised_iff_of_readFile {found : Option Entries} (h : readFile tree p = .ok found) (key : String) :
    IsPromised tree p key ((Entries.get? (found.getD []).reverse key).or (default? key)) ↔
      ¬ Overrides tree p key := by
  rcases readFile_cases h with ⟨rfl, hno⟩ | ⟨v, entries, hv, hentries, rfl⟩
  · rw [isPromised_iff_of_no_table fun entries => hno _]
    refine iff_of_true Option.none_or ?_
    rintro ⟨v, _, _, hv, -⟩
    exact hno v hv
  · rw [Option.getD_some]
    by_cases hpairs : ∃ pairs, Lists v pairs
    · obtain ⟨pairs, hpairs⟩ := hpairs
      cases hentries.symm.trans hpairs.entriesOf_eq
      exact isPromised_of_lists_iff hv hpairs
    · have hno : ¬ Overrides tree p key := by
        rintro ⟨v', pairs, _, hv', h', -⟩
        exact hpairs ⟨pairs, hv.unique hv' ▸ h'⟩
      refine iff_of_true ?_ hno
      rcases entriesOf_eq_ok_iff.mp hentries with ⟨hfalse, rfl⟩ | rfl | h'
      -- What counts as false may be a table, but then it is the empty one.
      · rw [List.reverse_nil, Entries.get?_nil, Option.none_or]
        refine .default fun table htable => ?_
        cases hv.unique htable
        cases hentries.symm.trans (entriesOf_table table)
        rfl
      · exact isPromised_of_table hv key
      · exact absurd ⟨entries, h'⟩ hpairs

/-! ### Reading -/

/-- Where there is nothing, nothing can be read. -/
theorem readFile_of_not_has (h : tree.has p = false) : readFile tree p = .ok none := by
  have hread : ∃ e, tree.read p = .error e := by
    rw [FileTree.has] at h
    cases hplace : tree.locate p with
    | error e => exact ⟨e, by rw [FileTree.read, hplace]; rfl⟩
    | ok place =>
      rw [hplace] at h
      have hnone : tree.at? place = none := Option.isNone_iff_eq_none.mp (Option.isSome_eq_false_iff.mp h)
      exact ⟨.missing, by simp only [FileTree.read, hplace, bind, Except.bind, hnone]⟩
  obtain ⟨e, he⟩ := hread
  rw [readFile, he]

/--
The settings of a kind come about exactly if its file can be read. What it says lies over the others, and a
file that says nothing is reported.
-/
theorem gives_loadTopic_iff {directory : Path} {t : Topic} {w w' : World} {r : Entries × String} :
    Gives (loadTopic directory t) w r w' ↔
      ∃ found, readFile w.tree (directory.child t.fileName) = .ok found ∧
        r = (t.defaults.overlay (found.getD []), if found.isSome then "loaded+overrides" else "loaded") ∧
        w' = if found.isNone && w.tree.has (directory.child t.fileName) then
            { w with log := w.log ++ [.error ("Could not parse user config " ++
              (directory.child t.fileName).text ++ ": ...")] }
          else w := by
  unfold loadTopic
  simp only [Action.gives_bind_iff, Action.gives_tree_iff]
  constructor
  · rintro ⟨_, _, ⟨rfl, rfl⟩, h⟩
    split at h
    case isTrue hno =>
      rw [Bool.not_eq_true'] at hno
      obtain ⟨hr, hw⟩ := Action.gives_pure_iff.mp h
      exact ⟨none, readFile_of_not_has hno, hr.symm, by rw [hno, Bool.and_false]; exact hw.symm⟩
    case isFalse hhas =>
      rw [Bool.not_eq_true', Bool.not_eq_false] at hhas
      obtain ⟨found, w₁, hread, h⟩ := Action.gives_bind_iff.mp h
      obtain ⟨hfound, rfl⟩ := Action.gives_ofExcept_iff.mp hread
      cases found with
      | some said =>
        obtain ⟨hr, hw⟩ := Action.gives_pure_iff.mp h
        exact ⟨some said, hfound, hr.symm, hw.symm⟩
      | none =>
        obtain ⟨_, w₂, hrecord, h⟩ := Action.gives_bind_iff.mp h
        obtain ⟨hr, hw⟩ := Action.gives_pure_iff.mp h
        refine ⟨none, hfound, hr.symm, ?_⟩
        rw [hhas, ← hw]
        exact Action.gives_record_iff.mp hrecord
  · rintro ⟨found, hfound, rfl, rfl⟩
    refine ⟨_, w, ⟨rfl, rfl⟩, ?_⟩
    cases hhas : w.tree.has (directory.child t.fileName) with
    | false =>
      cases hfound.symm.trans (readFile_of_not_has hhas)
      exact Action.gives_pure_iff.mpr ⟨rfl, rfl⟩
    | true =>
      refine Action.gives_bind_iff.mpr ⟨found, w, Action.gives_ofExcept_iff.mpr ⟨hfound, rfl⟩, ?_⟩
      cases found with
      | some said => exact Action.gives_pure_iff.mpr ⟨rfl, rfl⟩
      | none =>
        exact Action.gives_bind_iff.mpr
          ⟨(), _, Action.gives_record_iff.mpr rfl, Action.gives_pure_iff.mpr ⟨rfl, rfl⟩⟩

theorem tree_of_gives_loadTopic {directory : Path} {t : Topic} {w w' : World} {r : Entries × String}
    (h : Gives (loadTopic directory t) w r w') : w'.tree = w.tree := by
  obtain ⟨found, -, -, rfl⟩ := gives_loadTopic_iff.mp h
  split <;> rfl

theorem neverFails_seedTopic (directory : Path) (t : Topic) : NeverFails (seedTopic directory t) := by
  unfold seedTopic
  refine Action.neverFails_tree.bind fun tree => ?_
  split
  case isTrue =>
    split
    case h_1 => exact (Action.neverFails_setTree _).bind fun _ => Action.neverFails_record _
    case h_2 => exact Action.neverFails_record _
  case isFalse => exact fun w => ⟨(), w, rfl⟩

theorem neverFails_seed (directory : Path) : NeverFails (seed directory) := by
  unfold seed
  refine Action.neverFails_tree.bind fun tree => (Action.neverFails_setTree _).bind fun _ => ?_
  split
  case h_1 => exact Action.neverFails_record _
  case h_2 => exact Action.neverFails_forM (neverFails_seedTopic directory) _

/-- What files are looked at in: if that is asked for, missing ones have been written before. -/
def seeded (directory : Path) (seeding : Bool) (w : World) : World :=
  if seeding then (seed directory).after w else w

theorem gives_load_iff {directory : Path} {seeding : Bool} {w w' : World} {settings : Settings} :
    Gives (load directory seeding) w settings w' ↔
      Gives (load directory) (seeded directory seeding w) settings w' := by
  cases seeding with
  | false => rfl
  | true =>
    have hload : load directory true = (do seed directory; load directory) := rfl
    rw [hload, Action.gives_bind_iff]
    -- Seeding cannot fail, so reading begins in the one world that it ends in.
    obtain ⟨_, w₁, hseed⟩ := neverFails_seed directory w
    have hw₁ : seeded directory true w = w₁ := hseed.after_eq
    rw [hw₁]
    constructor
    · rintro ⟨_, w₂, hseed', h⟩
      rw [(hseed.unique hseed').2]
      exact h
    · exact fun h => ⟨(), w₁, hseed, h⟩

/-- Settings come about exactly if both files can be read; those of writing come from theirs. -/
theorem exists_gives_load_iff (directory : Path) (seeding : Bool) (w : World) (good : Entries → Prop) :
    (∃ settings w', Gives (load directory seeding) w settings w' ∧ good settings.serialization) ↔
      (∃ found, readFile (seeded directory seeding w).tree (directory.child Topic.logging.fileName) = .ok found) ∧
        ∃ found, readFile (seeded directory seeding w).tree (directory.child Topic.serialization.fileName) =
          .ok found ∧
          good (serializationBasis.overlay (Topic.serialization.defaults.overlay (found.getD []))) := by
  rw [exists_congr fun settings => exists_congr fun w' => and_congr_left fun _ => gives_load_iff]
  simp only [load, Bool.false_eq_true, if_false, Action.gives_bind_iff, Action.gives_record_iff,
    Action.gives_pure_iff]
  constructor
  · rintro ⟨_, _, ⟨_, w₁, hlogging, _, w₂, hwriting, _, _, -, rfl, rfl⟩, hgood⟩
    obtain ⟨logged, hlogged, -⟩ := gives_loadTopic_iff.mp hlogging
    obtain ⟨found, hfound, rfl, -⟩ := gives_loadTopic_iff.mp hwriting
    rw [tree_of_gives_loadTopic hlogging] at hfound
    exact ⟨⟨logged, hlogged⟩, found, hfound, hgood⟩
  · rintro ⟨⟨logged, hlogged⟩, found, hfound, hgood⟩
    have hlogging := gives_loadTopic_iff.mpr ⟨logged, hlogged, rfl, rfl⟩
    rw [← tree_of_gives_loadTopic hlogging] at hfound
    have hwriting := gives_loadTopic_iff.mpr ⟨found, hfound, rfl, rfl⟩
    exact ⟨_, _, ⟨_, _, hlogging, _, _, hwriting, (), _, rfl, rfl, rfl⟩, hgood⟩

/--
Settings are read, and each of some settings of writing has the value that is promised, exactly if neither
file keeps settings from being read and no list of pairs stands where a table should and changes one of them.
-/
theorem load_promised_iff (directory : Path) (seeding : Bool) (w : World) (keys : Set String) :
    (∃ settings w', Gives (load directory seeding) w settings w' ∧
        ∀ key ∈ keys, IsPromised (seeded directory seeding w).tree
          (directory.child Topic.serialization.fileName) key (settings.serialization.get? key)) ↔
      (∀ t, ¬ Breaks (seeded directory seeding w).tree (directory.child (Topic.fileName t))) ∧
        ∀ key ∈ keys, ¬ Overrides (seeded directory seeding w).tree
          (directory.child Topic.serialization.fileName) key := by
  generalize hp : directory.child Topic.serialization.fileName = p
  generalize htree : (seeded directory seeding w).tree = tree
  have hload := exists_gives_load_iff directory seeding w
    fun all => ∀ key ∈ keys, IsPromised tree p key (Entries.get? all key)
  rw [hp, htree, exists_readFile_eq_ok_iff] at hload
  have hkeys : ∀ {found}, readFile tree p = .ok found →
      ((∀ key ∈ keys, IsPromised tree p key (Entries.get? (serializationBasis.overlay
        (Topic.serialization.defaults.overlay (found.getD []))) key)) ↔ ∀ key ∈ keys, ¬ Overrides tree p key) :=
    fun hfound => forall₂_congr fun key _ => by
      rw [get?_overlay_defaults]
      exact isPromised_iff_of_readFile hfound key
  refine hload.trans ⟨?_, ?_⟩
  · rintro ⟨hlogging, found, hfound, hgood⟩
    refine ⟨fun t => ?_, (hkeys hfound).mp hgood⟩
    cases t with
    | logging => exact hlogging
    | serialization =>
      rw [hp]
      exact (exists_readFile_eq_ok_iff tree p).mp ⟨found, hfound⟩
  · rintro ⟨hreads, hno⟩
    obtain ⟨found, hfound⟩ := (exists_readFile_eq_ok_iff tree p).mpr (hp ▸ hreads .serialization)
    exact ⟨hreads .logging, found, hfound, (hkeys hfound).mpr hno⟩

/-- A file whose one byte begins no character. -/
def strayByte : World :=
  { tree := ⟨[(["config"], .directory), (["config", "serialization.yml"], .file ⟨#[0xff]⟩)]⟩ }

theorem load_strayByte : ¬ ∃ settings w', Gives (load ⟨["config"]⟩) strayByte settings w' := by
  rintro ⟨settings, w', h⟩
  obtain ⟨-, found, hfound, -⟩ :=
    (exists_gives_load_iff ⟨["config"]⟩ false strayByte fun _ => True).mp ⟨settings, w', h, trivial⟩
  have hread : readFile strayByte.tree (Path.child ⟨["config"]⟩ Topic.serialization.fileName) = .error .notText :=
    rfl
  cases hread.symm.trans hfound

end Manifest.Settings
