import Manifest.Release

/-! The version that is chosen among releases. It is the version of one of them, so it begins with a digit
and has no white space at its ends. -/

set_option autoImplicit false

namespace Manifest

theorem Text.isBlank_of_isDigit {c : Char} (h : isDigit c = true) : isBlank c = false := by
  have hapart : ∀ start ∈ digitZeros, ∀ range ∈ blanks, range.2 < start ∨ start + 9 < range.1 := by
    decide
  rw [isDigit, digitValue?, Option.isSome_map, List.find?_isSome] at h
  obtain ⟨start, hstart, hdigit⟩ := h
  rw [Bool.and_eq_true, decide_eq_true_eq, decide_eq_true_eq] at hdigit
  rw [Bool.eq_false_iff]
  intro hblank
  obtain ⟨range, hrange, hlow, hhigh⟩ := (Ranges.has_iff blanks c).mp hblank
  rcases hapart start hstart range hrange with h | h <;> omega

namespace Release

open Text (isDigit)

theorem head_of_dottedRun? {cs : List Char} {numbers : List (List Char)}
    (h : dottedRun? cs = some numbers) : cs.head?.any isDigit = true := by
  rw [dottedRun?] at h
  split at h
  · next hhead => exact (Bool.and_eq_true_iff.mp hhead).1
  · cases h

/-- A run begins with a digit. -/
theorem head_lastRunAfter {skip : Nat} {cs : List Char} {run : Run} (h : lastRunAfter skip cs = some run) :
    run.tail.head?.any isDigit = true := by
  induction cs generalizing skip run with
  | nil => cases skip <;> cases h
  | cons c cs ih =>
    cases skip with
    | succ skip => exact ih h
    | zero =>
      rw [lastRunAfter] at h
      split at h
      · exact ih h
      · next numbers hnumbers =>
        rcases Option.or_eq_some_iff.mp h with h | ⟨-, h⟩
        · exact ih h
        · cases h
          exact head_of_dottedRun? hnumbers

theorem stripList_ne_nil {cs : List Char} (h : cs.head?.any isDigit = true) : Text.stripList cs ≠ [] := by
  cases cs with
  | nil => cases h
  | cons c cs =>
    have hblank : ∀ x ∈ (c :: cs).head?, Text.isBlank x = false := by
      intro x hx
      cases hx
      exact Text.isBlank_of_isDigit h
    rw [Text.stripList, Text.dropWhile_eq_self hblank]
    intro hnil
    obtain ⟨tail, htail, happend⟩ := Text.trimEndList_append (c :: cs)
    rw [hnil, List.nil_append] at happend
    have hc := htail c (by rw [happend]; exact List.mem_cons_self)
    rw [hblank c rfl] at hc
    cases hc

/-- A version is a text that is not empty, with no white space at its ends. -/
theorem strip_version {release : String} {run : Run} (h : lastRun release = some run) :
    Text.strip run.version = run.version ∧ run.version ≠ "" := by
  have htail := stripList_ne_nil (head_lastRunAfter h)
  refine ⟨?_, fun hempty => htail ?_⟩
  · rw [Run.version, Text.strip, String.toList_ofList, Text.stripList_stripList]
  · rw [Run.version] at hempty
    simpa using congrArg String.toList hempty

theorem mem_candidates {releases : List String} {cs : List Candidate} (h : candidates releases = .ok cs)
    {c : Candidate} (hc : c ∈ cs) :
    ∃ release ∈ releases, ∃ run, lastRun release = some run ∧ c.version = run.version := by
  induction releases generalizing cs with
  | nil =>
    cases h
    cases hc
  | cons release rest ih =>
    rw [candidates] at h
    split at h
    · obtain ⟨r, hr, hrun⟩ := ih h hc
      exact ⟨r, List.mem_cons_of_mem _ hr, hrun⟩
    · next run hrun =>
      cases hkey : run.key with
      | error e =>
        rw [hkey] at h
        cases h
      | ok key =>
        cases hothers : candidates rest with
        | error e =>
          rw [hkey, hothers] at h
          cases h
        | ok others =>
          rw [hkey, hothers] at h
          cases h
          rcases List.mem_cons.mp hc with rfl | hc
          · exact ⟨release, List.mem_cons_self, run, hrun, rfl⟩
          · obtain ⟨r, hr, hrun'⟩ := ih hothers hc
            exact ⟨r, List.mem_cons_of_mem _ hr, hrun'⟩

theorem mem_of_best? {cs : List Candidate} {c : Candidate} (h : best? cs = some c) : c ∈ cs := by
  cases cs with
  | nil => cases h
  | cons first rest =>
    rw [best?, Option.some.injEq] at h
    rw [← h]
    clear h
    induction rest generalizing first with
    | nil => exact List.mem_cons_self
    | cons second rest ih =>
      rw [List.foldl_cons]
      split
      · exact List.mem_cons_of_mem _ (ih second)
      · rcases List.mem_cons.mp (ih first) with h | h
        · rw [h]
          exact List.mem_cons_self
        · exact List.mem_cons_of_mem _ (List.mem_cons_of_mem _ h)

theorem eligible_eq_ok {requested : String} {releases : List String} {cs : List Candidate}
    (h : eligible requested releases = .ok cs) :
    ∃ all, candidates releases = .ok all ∧ ∀ c ∈ cs, c ∈ all := by
  rw [eligible] at h
  cases hall : candidates releases with
  | error e =>
    rw [hall] at h
    cases h
  | ok all =>
    refine ⟨all, rfl, ?_⟩
    rw [hall] at h
    cases hlatest : asksLatest requested with
    | true =>
      rw [hlatest] at h
      cases h
      exact fun _ hc => hc
    | false =>
      rw [hlatest] at h
      cases hwanted : requestedKey? requested with
      | error e =>
        rw [hwanted] at h
        cases h
      | ok wanted =>
        rw [hwanted] at h
        cases wanted with
        | none => cases h
        | some wanted =>
          cases h
          exact fun _ hc => (List.mem_filter.mp hc).1

/-- What is chosen is the version of a release. -/
theorem select_eq_ok {requested version : String} {releases : List String}
    (h : select requested releases = .ok version) :
    ∃ release ∈ releases, ∃ run, lastRun release = some run ∧ version = run.version := by
  rw [select] at h
  cases hcs : eligible requested releases with
  | error e =>
    rw [hcs] at h
    cases h
  | ok cs =>
    rw [hcs] at h
    simp only [bind, Except.bind] at h
    cases hbest : best? cs with
    | none =>
      rw [hbest] at h
      cases h
    | some c =>
      rw [hbest] at h
      cases h
      obtain ⟨all, hall, hsub⟩ := eligible_eq_ok hcs
      exact mem_candidates hall (hsub c (mem_of_best? hbest))

end Release

end Manifest
