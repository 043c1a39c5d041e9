import Manifest.Proofs.Release.Choice

/-! When there is no choice at all, not even the answer that nothing matches. Digits are read as numbers
where they stand in the last run of a release and where they are asked for. That fails if there are too
many of them, or if a sign among those asked for shows a digit without being one. It fails for no other
reason. -/

set_option autoImplicit false

namespace Manifest.Release

open Text (isDigit isDigitLike NumeralError)

/-! Numbers that can be read. -/

theorem exists_decimal_iff {cs : List Char} :
    (∃ n, Text.decimal cs = .ok n) ↔
      cs ≠ [] ∧ (∀ c ∈ cs, isDigit c = true) ∧ cs.length ≤ Text.maxDigits := by
  constructor
  · rintro ⟨n, hn⟩
    obtain ⟨hne, hdigits⟩ := isNumber_of_decimal hn
    refine ⟨hne, hdigits, Nat.le_of_not_lt fun hlong => ?_⟩
    obtain ⟨value, hvalue⟩ := Option.isSome_iff_exists.mp (Text.digitsValue_isSome cs hdigits 0)
    rw [Text.decimal, if_neg (by simpa using hne), hvalue] at hn
    dsimp only at hn
    rw [if_pos hlong] at hn
    cases hn
  · rintro ⟨hne, hdigits, hlength⟩
    obtain ⟨value, hvalue⟩ := Option.isSome_iff_exists.mp (Text.digitsValue_isSome cs hdigits 0)
    refine ⟨value, ?_⟩
    rw [Text.decimal, if_neg (by simpa using hne), hvalue]
    exact if_neg (Nat.not_lt.mpr hlength)

/-- Whether the last run of a release has a number with more digits than are read. -/
def hasLongNumber (release : String) : Prop :=
  ∃ front numbers back, release.toList = front ++ (joined numbers ++ back) ∧
    IsLastRun front numbers back ∧ ∃ number ∈ numbers, Text.maxDigits < number.length

/--
Whether a request looks like numbers and cannot be read: groups of signs that show digits, with dots
between them, in one of which some sign is no digit or there are too many.
-/
def namesUnreadable (requested : String) : Prop :=
  ∃ groups, groups ≠ [] ∧ Text.stripList requested.toList = joined groups ∧
    (∀ group ∈ groups, group ≠ [] ∧ ∀ c ∈ group, isDigitLike c = true) ∧
    ∃ group ∈ groups, (∃ c ∈ group, isDigit c = false) ∨ Text.maxDigits < group.length

theorem exists_key_iff {release : String} {run : Run} (h : lastRun release = some run) :
    (∃ key, run.key = .ok key) ↔ ¬ hasLongNumber release := by
  obtain ⟨front, back, happend, htail, hlast⟩ := lastRun_eq_some_iff.mp h
  rw [Run.key, exists_mapM_eq_ok_iff]
  constructor
  · rintro hread ⟨front', numbers, back', happend', hlast', number, hnumber, hlong⟩
    -- the last run is the only one
    have hrun := lastRunAfter_of_isLastRun hlast'
    rw [← happend', ← lastRun, h, Option.some.injEq] at hrun
    rw [hrun] at hread
    exact Nat.not_lt.mpr (exists_decimal_iff.mp (hread number hnumber)).2.2 hlong
  · intro hshort number hnumber
    refine exists_decimal_iff.mpr ⟨(hlast.digits number hnumber).1, (hlast.digits number hnumber).2, ?_⟩
    rw [htail] at happend
    exact Nat.le_of_not_lt fun hlong => hshort ⟨front, run.numbers, back, happend, hlast, number, hnumber, hlong⟩

theorem not_hasLongNumber {release : String} (h : lastRun release = none) : ¬ hasLongNumber release := by
  rintro ⟨front, numbers, back, happend, hlast, -⟩
  rw [lastRun, happend, lastRunAfter_of_isLastRun hlast] at h
  cases h

/-- All candidates are found exactly if every number in their versions can be read. -/
theorem exists_candidates_iff {releases : List String} :
    (∃ cs, candidates releases = .ok cs) ↔ ∀ release ∈ releases, ¬ hasLongNumber release := by
  induction releases with
  | nil => exact ⟨nofun, fun _ => ⟨[], rfl⟩⟩
  | cons release rest ih =>
    rw [List.forall_mem_cons, ← ih, candidates]
    cases hrun : lastRun release with
    | none => exact ⟨fun h => ⟨not_hasLongNumber hrun, h⟩, And.right⟩
    | some run =>
      rw [← exists_key_iff hrun]
      cases hkey : run.key with
      | error e => simp [hkey, bind, Except.bind]
      | ok key =>
        cases hothers : candidates rest with
        | error e => simp [hkey, bind, Except.bind]
        | ok others => simp [hkey, bind, Except.bind, pure, Except.pure]

/-- A request is at fault exactly if it looks like numbers and cannot be read. -/
theorem exists_requestedKey?_eq_error_iff {requested : String} :
    (∃ e, requestedKey? requested = .error e) ↔ namesUnreadable requested := by
  rw [requestedKey?]
  constructor
  · rintro ⟨e, he⟩
    split at he
    · next hall =>
      have hgroups : ∀ group ∈ splitDots (Text.stripList requested.toList),
          group ≠ [] ∧ ∀ c ∈ group, isDigitLike c = true := by
        simpa using hall
      refine ⟨_, splitDots_ne_nil _, (joined_splitDots _).symm, hgroups, ?_⟩
      by_contra hno
      push Not at hno
      obtain ⟨wanted, hwanted⟩ := exists_mapM_eq_ok_iff.mpr fun group hgroup =>
        exists_decimal_iff.mpr ⟨(hgroups group hgroup).1, by simpa using (hno group hgroup).1,
          (hno group hgroup).2⟩
      rw [hwanted] at he
      cases he
    · cases he
  · rintro ⟨groups, hne, hcs, hgroups, group, hgroup, hunreadable⟩
    have hall : (groups.all fun part => !part.isEmpty && part.all isDigitLike) = true := by
      simpa using hgroups
    rw [hcs, splitDots_joined hne fun group hgroup => (hgroups group hgroup).2, if_pos hall]
    cases hread : groups.mapM Text.decimal with
    | error e => exact ⟨e, rfl⟩
    | ok wanted =>
      obtain ⟨-, hdigits, hlength⟩ :=
        exists_decimal_iff.mp (exists_mapM_eq_ok_iff.mp ⟨wanted, hread⟩ group hgroup)
      rcases hunreadable with ⟨c, hc, hno⟩ | hlong
      · rw [hdigits c hc] at hno
        cases hno
      · exact absurd hlong (Nat.not_lt.mpr hlength)

/-- What looks like numbers does not ask for the best version of all. -/
theorem asksLatest_of_namesUnreadable {requested : String} (h : namesUnreadable requested) :
    asksLatest requested = false := by
  obtain ⟨groups, hne, hcs, hgroups, -⟩ := h
  refine asksLatest_of_isDigitLike ?_
  obtain ⟨group, groups, rfl⟩ := List.exists_cons_of_ne_nil hne
  obtain ⟨⟨hgroup, hdigits⟩, -⟩ := List.forall_mem_cons.mp hgroups
  obtain ⟨c, group, rfl⟩ := List.exists_cons_of_ne_nil hgroup
  have hc := hdigits c List.mem_cons_self
  cases groups with
  | nil => simpa [hcs, joined_singleton] using hc
  | cons next groups => simpa [hcs, joined_cons_cons] using hc

/-! The choice. -/

theorem exists_select_eq_numeral_iff {requested : String} {releases : List String} :
    (∃ e, select requested releases = .error (.numeral e)) ↔
      (∃ release ∈ releases, hasLongNumber release) ∨ namesUnreadable requested := by
  cases hall : candidates releases with
  | error e =>
    have hlong : ∃ release ∈ releases, hasLongNumber release := by
      by_contra hno
      push Not at hno
      obtain ⟨cs, hcs⟩ := exists_candidates_iff.mpr hno
      rw [hall] at hcs
      cases hcs
    refine ⟨fun _ => Or.inl hlong, fun _ => ⟨e, ?_⟩⟩
    rw [select, eligible, hall]
    rfl
  | ok all =>
    have hshort := exists_candidates_iff.mp ⟨all, hall⟩
    cases hwanted : requestedKey? requested with
    | error e =>
      have hnames := exists_requestedKey?_eq_error_iff.mp ⟨e, hwanted⟩
      refine ⟨fun _ => Or.inr hnames, fun _ => ⟨e, ?_⟩⟩
      rw [select, eligible, hall, asksLatest_of_namesUnreadable hnames, hwanted]
      rfl
    | ok wanted =>
      constructor
      · rintro ⟨e, he⟩
        exact absurd he (select_ne_numeral hall hwanted e)
      · rintro (⟨release, hrelease, hlong⟩ | hnames)
        · exact absurd hlong (hshort release hrelease)
        · obtain ⟨e, he⟩ := exists_requestedKey?_eq_error_iff.mpr hnames
          rw [hwanted] at he
          cases he

/--
A choice gives a version, or reports that no release matches with the request and all releases, exactly
if no release has a number in its last run that is too long to be read, and the request is not one that
looks like numbers and cannot be read.
-/
theorem select_onlyNoMatch_iff (requested : String) (releases : List String) :
    ((∃ version, select requested releases = .ok version) ∨
        select requested releases = .error (.noMatch requested releases)) ↔
      (∀ release ∈ releases, ¬ hasLongNumber release) ∧ ¬ namesUnreadable requested := by
  have hnumeral := @exists_select_eq_numeral_iff requested releases
  constructor
  · intro h
    have hno : ¬ ∃ e, select requested releases = .error (.numeral e) := by
      rintro ⟨e, he⟩
      rcases h with ⟨version, h⟩ | h <;> rw [he] at h <;> cases h
    rw [hnumeral] at hno
    push Not at hno
    exact hno
  · rintro ⟨hshort, hread⟩
    have hno : ¬ ∃ e, select requested releases = .error (.numeral e) := by
      rw [hnumeral]
      rintro (⟨release, hrelease, hlong⟩ | hnames)
      · exact hshort release hrelease hlong
      · exact hread hnames
    rcases select_cases fun e he => hno ⟨e, he⟩ with ⟨best, -, hselect⟩ | ⟨hselect, -⟩
    · exact Or.inl ⟨best.run.version, hselect⟩
    · exact Or.inr hselect

/-- A superscript looks like a number that is asked for, and is at fault when it is read as one. -/
theorem superscript_not_reported :
    ¬ ((∃ version, select "²" ["1.0"] = .ok version) ∨
      select "²" ["1.0"] = .error (.noMatch "²" ["1.0"])) := by
  have hfails : select "²" ["1.0"] = .error (.numeral .notDecimal) := by decide +kernel
  rw [hfails]
  rintro (⟨version, h⟩ | h) <;> cases h

end Manifest.Release
