import Manifest.Proofs.Release.Run

/-! The version of a release, compared with a scan for runs from left to right. The version begins with the
last run that the scan finds. What stands in front of that run is left out, and this changes nothing: the
scan of the version finds the same run and no other one, so a version is its own version, and it has the
numbers of its release. -/

set_option autoImplicit false

namespace Manifest.Release

open Text (isDigit)

/-- Whether a text is a run: numbers joined by dots, two at least. -/
def IsDotted (cs : List Char) : Prop :=
  ∃ numbers, 2 ≤ numbers.length ∧ areNumbers numbers ∧ cs = joined numbers

/--
The runs that a scan of a text finds, from left to right. Each begins where the first one can and is as
long as it can be; the scan goes on behind it.
-/
inductive Scans : List Char → List (List Char) → Prop
  | done {cs : List Char} (hnone : ∀ run, IsDotted run → ¬ run <:+: cs) : Scans cs []
  | found {front run back : List Char} {runs : List (List Char)} (hrun : IsDotted run)
      (hfirst : ∀ before early, IsDotted early → before ++ early <+: front ++ (run ++ back) →
        front.length ≤ before.length)
      (hlongest : ∀ longer, IsDotted longer → longer <+: run ++ back → longer <+: run)
      (hmore : Scans back runs) : Scans (front ++ (run ++ back)) (run :: runs)

/-- How a version is read off a release in which a scan finds some runs. -/
structure IsReadOff (version release : String) (runs : List (List Char)) : Prop where
  /-- It is the end of the release, without the white space behind it. -/
  suffix : ∃ front blank, release.toList = front ++ (version.toList ++ blank) ∧
    ∀ c ∈ blank, Text.isBlank c = true
  /-- There is no white space at its ends. -/
  trimmed : Text.strip version = version
  /-- It begins with the last run of the release. A scan of it finds this run alone, and there is none behind it. -/
  begins : ∃ run back, runs.getLast? = some run ∧ version.toList = run ++ back ∧
    Scans version.toList [run] ∧ ∀ further, IsDotted further → ¬ further <:+: back

/-! Runs within numbers that are joined by dots. -/

/-- What is left of a run, from wherever on, goes on with a run. -/
theorem continues_of_joined_eq_append {numbers : List (List Char)} (h : areNumbers numbers)
    {front rest : List Char} (happend : joined numbers = front ++ rest) (hne : rest ≠ []) :
    continues rest = true := by
  induction numbers generalizing front with
  | nil => exact absurd (List.append_eq_nil_iff.mp happend.symm).2 hne
  | cons n numbers ih =>
    obtain ⟨⟨-, hdigits⟩, hnumbers⟩ := areNumbers_cons.mp h
    have hwithin : ∀ {tail more : List Char}, n = front ++ tail → tail ≠ [] →
        continues (tail ++ more) = true := by
      intro tail more hn htail
      refine continues_append ?_ more
      obtain ⟨c, tail, rfl⟩ := List.exists_cons_of_ne_nil htail
      have hc := hdigits c (by simp [hn])
      simp [continues, hc]
    cases numbers with
    | nil =>
      rw [joined_singleton] at happend
      simpa using @hwithin rest [] happend hne
    | cons m numbers =>
      have hdotted : continues ('.' :: joined (m :: numbers)) = true := by
        have hhead := head?_joined (List.cons_ne_nil m numbers) hnumbers []
        rw [List.append_nil] at hhead
        rw [continues, opensDotted, hhead]
        simp
      rw [joined_cons_cons] at happend
      rcases List.append_eq_append_iff.mp happend with ⟨tail, rfl, htail⟩ | ⟨tail, hn, rfl⟩
      · cases tail with
        | nil =>
          rw [List.nil_append] at htail
          rwa [← htail]
        | cons dot tail => exact ih hnumbers (List.cons.inj htail).2
      · cases tail with
        | nil => exact hdotted
        | cons c tail => exact hwithin hn (List.cons_ne_nil c tail)

/-- A run that does not go on behind is the longest in front of a text. -/
theorem prefix_joined {longer : List Char} (hlonger : IsDotted longer) {run back : List Char}
    (hback : continues back = false) (h : longer <+: run ++ back) : longer <+: run := by
  obtain ⟨numbers, -, hnumbers, rfl⟩ := hlonger
  obtain ⟨rest, happend⟩ := h
  rcases List.append_eq_append_iff.mp happend with ⟨tail, rfl, -⟩ | ⟨tail, hrun, rfl⟩
  · exact List.prefix_append _ tail
  · cases tail with
    | nil => rw [hrun, List.append_nil]
    | cons c tail =>
      have hgoes := continues_of_joined_eq_append hnumbers hrun (List.cons_ne_nil c tail)
      rw [continues_append hgoes] at hback
      cases hback

theorem dot_mem_of_isDotted {run : List Char} (h : IsDotted run) : '.' ∈ run := by
  obtain ⟨numbers, htwo, -, rfl⟩ := h
  match numbers, htwo with
  | n :: m :: numbers, _ => simp [joined_cons_cons]

/-- Where a text begins with a run, one is read. -/
theorem dottedRun?_ne_none {run cs : List Char} (hrun : IsDotted run) (h : run <+: cs) :
    dottedRun? cs ≠ none := by
  have hhead : cs.head?.any isDigit = true := by
    obtain ⟨numbers, htwo, hnumbers, rfl⟩ := id hrun
    obtain ⟨rest, rfl⟩ := h
    exact head?_joined (List.ne_nil_of_length_pos (by omega)) hnumbers rest
  obtain ⟨rest, happend, hrest, hnumbers, hne⟩ := exists_joined_numbersFrom [] cs (by simp) (Or.inr hhead)
  rw [List.reverse_nil, List.nil_append] at happend
  have hwithin : run <+: joined (numbersFrom [] cs) := prefix_joined hrun hrest (by rwa [← happend])
  -- a single number has no dot
  have htwo : 2 ≤ (numbersFrom [] cs).length := by
    by_contra hless
    obtain ⟨n, hn⟩ : ∃ n, numbersFrom [] cs = [n] := by
      rw [← List.length_eq_one_iff]
      have := List.length_pos_of_ne_nil hne
      omega
    rw [hn] at hwithin hnumbers
    rw [joined_singleton] at hwithin
    have hdot := (areNumbers_cons.mp hnumbers).1.2 '.' (hwithin.subset (dot_mem_of_isDotted hrun))
    rw [not_isDigit_dot] at hdot
    cases hdot
  rw [dottedRun?, hhead, if_pos (by simpa using htwo)]
  exact Option.some_ne_none _

theorem isDotted_of_dottedRun? {cs : List Char} {numbers : List (List Char)}
    (h : dottedRun? cs = some numbers) : IsDotted (joined numbers) := by
  obtain ⟨-, -, -, hnumbers, htwo⟩ := exists_joined_dottedRun? h
  exact ⟨numbers, htwo, hnumbers, rfl⟩

/-- Where no dot stands between digits, there is no run. -/
theorem not_infix_of_hasRun {cs run : List Char} (h : hasRun cs = false) (hrun : IsDotted run) :
    ¬ run <:+: cs := by
  obtain ⟨numbers, htwo, hnumbers, rfl⟩ := hrun
  rintro ⟨front, back, rfl⟩
  rw [List.append_assoc, hasRun_append_of_right front (hasRun_joined htwo hnumbers back)] at h
  cases h

/-! Scans. -/

namespace Scans

/-- A character in front of a text, where no run begins, changes nothing of what a scan finds. -/
theorem cons {c : Char} {cs : List Char} {runs : List (List Char)} (hc : dottedRun? (c :: cs) = none)
    (h : Scans cs runs) : Scans (c :: cs) runs := by
  cases h with
  | done hnone =>
    -- a run in the longer text begins with the character in front, or stands behind it
    refine done fun run hrun hwithin => ?_
    rcases List.infix_cons_iff.mp hwithin with hprefix | hinfix
    · exact dottedRun?_ne_none hrun hprefix hc
    · exact hnone run hrun hinfix
  | @found front run back runs hrun hfirst hlongest hmore =>
    rw [← List.cons_append] at hc ⊢
    refine found hrun (fun before early hearly hprefix => ?_) hlongest hmore
    cases before with
    | nil => exact absurd hc (dottedRun?_ne_none hearly hprefix)
    | cons b before =>
      exact Nat.succ_le_succ (hfirst before early hearly (List.cons_prefix_cons.mp hprefix).2)

/-- A run in front of a text is found first. -/
theorem joined {numbers : List (List Char)} {back : List Char} {runs : List (List Char)}
    (hrun : IsDotted (Release.joined numbers)) (hback : continues back = false) (h : Scans back runs) :
    Scans (Release.joined numbers ++ back) (Release.joined numbers :: runs) :=
  @found [] _ _ _ hrun (fun before _ _ _ => Nat.zero_le before.length)
    (fun _ hlonger hprefix => prefix_joined hlonger hback hprefix) h

/-- A run is found no later by one scan than by another one. -/
theorem length_front_le {front run back front' run' back' : List Char} (hrun' : IsDotted run')
    (hfirst : ∀ before early, IsDotted early → before ++ early <+: front ++ (run ++ back) →
      front.length ≤ before.length)
    (happend : front ++ (run ++ back) = front' ++ (run' ++ back')) : front.length ≤ front'.length :=
  hfirst front' run' hrun' (by rw [happend, ← List.append_assoc]; exact List.prefix_append _ back')

/-- A scan finds nothing else. -/
theorem unique {cs : List Char} {runs runs' : List (List Char)} (h : Scans cs runs) (h' : Scans cs runs') :
    runs = runs' := by
  induction h generalizing runs' with
  | done hnone =>
    cases h' with
    | done => rfl
    | @found front run back _ hrun => exact absurd ⟨front, back, by simp⟩ (hnone run hrun)
  | @found front run back runs hrun hfirst hlongest hmore ih =>
    generalize hcs : front ++ (run ++ back) = cs at h'
    cases h' with
    | done hnone => exact absurd ⟨front, back, by simp [← hcs]⟩ (hnone run hrun)
    | @found front' run' back' runs' hrun' hfirst' hlongest' hmore' =>
      have hlength : front.length = front'.length :=
        Nat.le_antisymm (length_front_le hrun' hfirst hcs) (length_front_le hrun hfirst' hcs.symm)
      obtain ⟨rfl, hrest⟩ := List.append_inj hcs hlength
      have hwithin : run <+: run' := hlongest' run hrun (by rw [← hrest]; exact List.prefix_append run back)
      have haround : run' <+: run := hlongest run' hrun' (by rw [hrest]; exact List.prefix_append run' back')
      obtain rfl := hwithin.eq_of_length (Nat.le_antisymm hwithin.length_le haround.length_le)
      rw [List.append_cancel_left hrest] at ih
      rw [ih hmore']

end Scans

/-- Every text can be scanned, and the last run that the scan finds is the one that is read. -/
theorem exists_scans (cs : List Char) :
    ∃ runs, Scans cs runs ∧ runs.getLast? = (lastRunAfter 0 cs).map fun run => joined run.numbers := by
  induction hlength : cs.length using Nat.strong_induction_on generalizing cs with
  | _ length ih =>
    cases cs with
    | nil => exact ⟨[], .done fun _ hrun => not_infix_of_hasRun rfl hrun, rfl⟩
    | cons c cs =>
      cases hrun : dottedRun? (c :: cs) with
      | none =>
        obtain ⟨runs, hscans, hlast⟩ := ih cs.length (by simp [← hlength]) cs rfl
        refine ⟨runs, hscans.cons hrun, ?_⟩
        rw [hlast, lastRunAfter, hrun]
      | some numbers =>
        obtain ⟨back, happend, hback, hnumbers, htwo⟩ := exists_joined_dottedRun? hrun
        have hdotted := isDotted_of_dottedRun? hrun
        have hless : back.length < length := by
          have := List.length_pos_of_mem (dot_mem_of_isDotted hdotted)
          rw [← hlength, happend, List.length_append]
          omega
        obtain ⟨runs, hscans, hlast⟩ := ih back.length hless back rfl
        refine ⟨joined numbers :: runs, by rw [happend]; exact hscans.joined hdotted hback, ?_⟩
        rw [happend, lastRunAfter_joined htwo hnumbers hback, List.getLast?_cons, hlast]
        cases lastRunAfter 0 back <;> rfl

/-! Versions. -/

/-- Behind a text that begins with a digit, white space is all that is cut off. -/
theorem exists_stripList_append {cs : List Char} (h : cs.head?.any isDigit = true) :
    ∃ blank, cs = Text.stripList cs ++ blank ∧ ∀ c ∈ blank, Text.isBlank c = true := by
  have hhead : ∀ c ∈ cs.head?, Text.isBlank c = false := by
    intro c hc
    rw [Option.mem_def.mp hc] at h
    exact Text.isBlank_of_isDigit h
  obtain ⟨blank, hblank, happend⟩ := Text.trimEndList_append cs
  rw [Text.stripList, Text.dropWhile_eq_self hhead]
  exact ⟨blank, happend.symm, hblank⟩

theorem version?_eq_some_iff {release version : String} :
    version? release = some version ↔ ∃ run, lastRun release = some run ∧ run.version = version :=
  Option.map_eq_some_iff

theorem version?_eq_none_iff {release : String} : version? release = none ↔ lastRun release = none :=
  Option.map_eq_none_iff

theorem key?_eq_ok_none_iff {release : String} : key? release = .ok none ↔ lastRun release = none := by
  rw [key?]
  cases lastRun release with
  | none => exact iff_of_true rfl rfl
  | some run =>
    refine iff_of_false ?_ (Option.some_ne_none run)
    dsimp only
    cases run.key <;> intro h <;> cases h

/-- A version is what stands from the last run on, and a scan of it finds this run alone. -/
theorem isReadOff_version {release : String} {run : Run} (h : lastRun release = some run)
    {runs : List (List Char)} (hlast : runs.getLast? = some (joined run.numbers)) :
    IsReadOff run.version release runs := by
  obtain ⟨front, back, hrelease, htail, hrun⟩ := lastRun_eq_some_iff.mp h
  have hne := List.ne_nil_of_length_pos (Nat.lt_of_lt_of_le Nat.zero_lt_two hrun.two)
  obtain ⟨kept, ⟨cut, rfl⟩, hversion⟩ := exists_stripList_joined hne hrun.digits back
  obtain ⟨blank, hsplit, hblank⟩ := exists_stripList_append (head_lastRunAfter h)
  rw [← htail] at hversion
  have hchars : run.version.toList = joined run.numbers ++ kept := by
    rw [Run.version, String.toList_ofList, hversion]
  have hends : continues kept = false :=
    Bool.eq_false_iff.mpr fun hkept => by simpa [hrun.ends] using continues_append hkept cut
  have hnone : hasRun kept = false :=
    Bool.eq_false_iff.mpr fun hkept => by simpa [hrun.last] using hasRun_append_of_left hkept cut
  refine ⟨⟨front, blank, ?_, hblank⟩, (strip_version h).1, joined run.numbers, kept, hlast, hchars, ?_, ?_⟩
  · rw [Run.version, String.toList_ofList, ← hsplit, hrelease]
  · rw [hchars]
    exact (Scans.done fun _ => not_infix_of_hasRun hnone).joined ⟨_, hrun.two, hrun.digits, rfl⟩ hends
  · exact fun _ => not_infix_of_hasRun hnone

/--
A scan of a release finds runs, and it finds the same ones always. There is a version, and there are numbers
to rank it by, exactly if it finds any. The version is then read off the release from the last run on; it is
its own version, and it is ranked as the release is.
-/
theorem versions_coherent (release : String) :
    (version? release = none ↔ key? release = .ok none) ∧
      ∃ runs, (∀ found, Scans release.toList found ↔ found = runs) ∧
        (version? release = none ↔ runs = []) ∧
        ∀ version, version? release = some version →
          IsReadOff version release runs ∧ version? version = some version ∧
            key? version = key? release := by
  obtain ⟨runs, hscans, hlast⟩ := exists_scans release.toList
  refine ⟨by rw [version?_eq_none_iff, key?_eq_ok_none_iff], runs, fun found => ?_, ?_, ?_⟩
  · exact ⟨fun hfound => hfound.unique hscans, fun hfound => hfound ▸ hscans⟩
  · rw [version?_eq_none_iff, ← List.getLast?_eq_none_iff, hlast, Option.map_eq_none_iff]
    rfl
  · intro version hversion
    obtain ⟨run, hrun, rfl⟩ := version?_eq_some_iff.mp hversion
    have hlast : runs.getLast? = some (joined run.numbers) := by
      rw [hlast]
      exact congrArg (Option.map fun run => joined run.numbers) hrun
    refine ⟨isReadOff_version hrun hlast, ?_, ?_⟩
    · refine version?_eq_some_iff.mpr ⟨_, lastRun_version hrun, ?_⟩
      rw [Run.version, Run.version, Text.stripList_stripList]
    · rw [key?, key?, hrun, lastRun_version hrun]
      rfl

/-- Dots, digits of another script and white space around the last of two runs. -/
theorem versions_coherent_mixedDigits :
    version? "core-1..2.10-rc5.\u0666.1_b7. \n" = some "5.\u0666.1_b7." ∧
      version? "5.\u0666.1_b7." = some "5.\u0666.1_b7." ∧
      key? "5.\u0666.1_b7." = key? "core-1..2.10-rc5.\u0666.1_b7. \n" := by
  have hversion : version? "core-1..2.10-rc5.\u0666.1_b7. \n" = some "5.\u0666.1_b7." := by decide +kernel
  obtain ⟨-, runs, -, -, hread⟩ := versions_coherent "core-1..2.10-rc5.\u0666.1_b7. \n"
  exact ⟨hversion, (hread _ hversion).2⟩

end Manifest.Release
