import Mathlib.Data.List.Infix
import Manifest.Proofs.Release

/-! The last run of numbers in a text, said without a scan: a text in front that no number of the run
reaches into, the numbers joined by dots, and a rest that neither goes on with the run nor has another
one. A version is read as the run that it was found by. -/

set_option autoImplicit false

namespace Manifest.Release

open Text (isDigit)

/-- Numbers joined by dots. -/
def joined (numbers : List (List Char)) : List Char :=
  ['.'].intercalate numbers

/-- Whether a text begins with a dot and a digit. -/
def opensDotted : List Char → Bool
  | [] => false
  | c :: cs => c == '.' && cs.head?.any isDigit

/-- Whether a run in front of a text would go on in it: with a digit, or with a dot and a digit. -/
def continues (cs : List Char) : Bool :=
  cs.head?.any isDigit || opensDotted cs

/-- Whether a text has a dot between two digits anywhere. -/
def hasRun : List Char → Bool
  | [] => false
  | c :: cs => (isDigit c && opensDotted cs) || hasRun cs

/-- Numbers are digits, and none of them is empty. -/
def areNumbers (numbers : List (List Char)) : Prop :=
  ∀ number ∈ numbers, number ≠ [] ∧ ∀ c ∈ number, isDigit c = true

/--
The numbers of the last run in a text, between the text in front of them and the text behind them.
Backwards, the front does not go on with the run either.
-/
structure IsLastRun (front : List Char) (numbers : List (List Char)) (back : List Char) : Prop where
  two : 2 ≤ numbers.length
  digits : areNumbers numbers
  begins : continues front.reverse = false
  ends : continues back = false
  last : hasRun back = false

theorem joined_cons_cons (n m : List Char) (numbers : List (List Char)) :
    joined (n :: m :: numbers) = n ++ '.' :: joined (m :: numbers) := by
  rw [joined, joined, List.intercalate_cons_cons, List.append_assoc]
  rfl

theorem joined_singleton (n : List Char) : joined [n] = n :=
  List.intercalate_singleton

theorem not_isDigit_dot : isDigit '.' = false := by
  decide

theorem areNumbers_cons {n : List Char} {numbers : List (List Char)} :
    areNumbers (n :: numbers) ↔ (n ≠ [] ∧ ∀ c ∈ n, isDigit c = true) ∧ areNumbers numbers :=
  List.forall_mem_cons

theorem areNumbers_nil : areNumbers [] := by
  simp [areNumbers]

/-- What a run begins with. -/
theorem head?_joined {numbers : List (List Char)} (hne : numbers ≠ []) (h : areNumbers numbers)
    (rest : List Char) : (joined numbers ++ rest).head?.any isDigit = true := by
  obtain ⟨n, numbers, rfl⟩ := List.exists_cons_of_ne_nil hne
  obtain ⟨⟨hn, hdigits⟩, -⟩ := areNumbers_cons.mp h
  obtain ⟨c, n, rfl⟩ := List.exists_cons_of_ne_nil hn
  have hc := hdigits c List.mem_cons_self
  cases numbers with
  | nil => simpa [joined_singleton] using hc
  | cons m numbers => simpa [joined_cons_cons] using hc

/-- What a run ends with. -/
theorem isDigit_getLast?_joined {numbers : List (List Char)} (hne : numbers ≠ [])
    (h : areNumbers numbers) : (joined numbers).getLast?.any isDigit = true := by
  induction numbers with
  | nil => exact absurd rfl hne
  | cons n numbers ih =>
    obtain ⟨⟨hn, hdigits⟩, hnumbers⟩ := areNumbers_cons.mp h
    cases numbers with
    | nil =>
      rw [joined_singleton, List.getLast?_eq_some_getLast hn]
      exact hdigits _ (List.getLast_mem hn)
    | cons m numbers =>
      have hmore := ih (List.cons_ne_nil m numbers) hnumbers
      rw [joined_cons_cons, List.getLast?_append, List.getLast?_cons]
      cases hlast : (joined (m :: numbers)).getLast? with
      | none => simp [hlast] at hmore
      | some c => simpa [hlast] using hmore

theorem length_joined {numbers : List (List Char)} (hne : numbers ≠ []) :
    runLength numbers = (joined numbers).length := by
  induction numbers with
  | nil => exact absurd rfl hne
  | cons n numbers ih =>
    cases numbers with
    | nil => simp [joined_singleton, runLength]
    | cons m numbers =>
      have hmore := ih (List.cons_ne_nil m numbers)
      simp only [runLength, List.flatten_cons, List.length_append, List.length_cons] at hmore ⊢
      rw [joined_cons_cons, List.length_append, List.length_cons, ← hmore]
      omega

/-! Numbers in front of a text. -/

theorem numbersFrom_digits {digits : List Char} (h : ∀ c ∈ digits, isDigit c = true)
    (current cs : List Char) :
    numbersFrom current (digits ++ cs) = numbersFrom (digits.reverse ++ current) cs := by
  induction digits generalizing current with
  | nil => rfl
  | cons c digits ih =>
    rw [List.cons_append, numbersFrom, if_pos (h c List.mem_cons_self),
      ih fun x hx => h x (List.mem_cons_of_mem _ hx)]
    simp

theorem numbersFrom_of_not_continues {cs : List Char} (h : continues cs = false)
    (current : List Char) : numbersFrom current cs = [current.reverse] := by
  cases cs with
  | nil => rfl
  | cons c cs =>
    rw [continues, Bool.or_eq_false_iff] at h
    have hc : isDigit c = false := h.1
    have hdot : (c == '.' && cs.head?.any isDigit) = false := h.2
    rw [numbersFrom, hc, hdot]
    simp

theorem numbersFrom_joined {numbers : List (List Char)} (hne : numbers ≠ []) (h : areNumbers numbers)
    {rest : List Char} (hrest : continues rest = false) :
    numbersFrom [] (joined numbers ++ rest) = numbers := by
  induction numbers with
  | nil => exact absurd rfl hne
  | cons n numbers ih =>
    obtain ⟨⟨hn, hdigits⟩, hnumbers⟩ := areNumbers_cons.mp h
    cases numbers with
    | nil =>
      rw [joined_singleton, numbersFrom_digits hdigits, numbersFrom_of_not_continues hrest]
      simp
    | cons m numbers =>
      have hmore := ih (List.cons_ne_nil m numbers) hnumbers
      have hhead := head?_joined (List.cons_ne_nil m numbers) hnumbers rest
      rw [joined_cons_cons, List.append_assoc, numbersFrom_digits hdigits, List.cons_append,
        numbersFrom, not_isDigit_dot, hhead, hmore]
      simp

/-- The numbers that are read in front of a text stand there, and do not go on behind. -/
theorem exists_joined_numbersFrom (current cs : List Char)
    (hcurrent : ∀ c ∈ current, isDigit c = true)
    (hne : current ≠ [] ∨ cs.head?.any isDigit = true) :
    ∃ rest, current.reverse ++ cs = joined (numbersFrom current cs) ++ rest ∧
      continues rest = false ∧ areNumbers (numbersFrom current cs) ∧ numbersFrom current cs ≠ [] := by
  induction cs generalizing current with
  | nil =>
    have hne : current ≠ [] := by simpa using hne
    refine ⟨[], by rw [numbersFrom, joined_singleton], rfl, ?_, by simp [numbersFrom]⟩
    simpa [numbersFrom, areNumbers, hne] using hcurrent
  | cons c cs ih =>
    rw [numbersFrom]
    split
    · next hc =>
      obtain ⟨rest, happend, hrest⟩ := ih (c :: current)
        (by simpa using ⟨hc, hcurrent⟩) (Or.inl (List.cons_ne_nil c current))
      refine ⟨rest, ?_, hrest⟩
      rw [← happend]
      simp
    · next hc =>
      have hne : current ≠ [] := by simpa [hc] using hne
      have hnumber : current.reverse ≠ [] ∧ ∀ x ∈ current.reverse, isDigit x = true := by
        simpa [hne] using hcurrent
      split
      · next hdot =>
        rw [Bool.and_eq_true, beq_iff_eq] at hdot
        obtain ⟨rest, happend, hrest, hnumbers, hmore⟩ := ih [] (by simp) (Or.inr hdot.2)
        refine ⟨rest, ?_, hrest, areNumbers_cons.mpr ⟨hnumber, hnumbers⟩, List.cons_ne_nil _ _⟩
        obtain ⟨m, numbers, hcons⟩ := List.exists_cons_of_ne_nil hmore
        rw [List.reverse_nil, List.nil_append] at happend
        rw [hcons] at happend ⊢
        rw [joined_cons_cons, List.append_assoc, List.cons_append, ← happend, hdot.1]
      · next hdot =>
        refine ⟨c :: cs, by rw [joined_singleton], ?_, ?_, List.cons_ne_nil _ _⟩
        · rw [continues, Bool.or_eq_false_iff]
          exact ⟨by simpa using hc, by simpa [opensDotted] using hdot⟩
        · exact areNumbers_cons.mpr ⟨hnumber, areNumbers_nil⟩

theorem dottedRun?_joined {numbers : List (List Char)} (htwo : 2 ≤ numbers.length)
    (h : areNumbers numbers) {rest : List Char} (hrest : continues rest = false) :
    dottedRun? (joined numbers ++ rest) = some numbers := by
  have hne := List.ne_nil_of_length_pos (Nat.lt_of_lt_of_le Nat.zero_lt_two htwo)
  rw [dottedRun?, numbersFrom_joined hne h hrest, head?_joined hne h, if_pos (by simpa using htwo)]

/-- A run in front of a text stands there, and does not go on behind. -/
theorem exists_joined_dottedRun? {cs : List Char} {numbers : List (List Char)}
    (h : dottedRun? cs = some numbers) :
    ∃ rest, cs = joined numbers ++ rest ∧ continues rest = false ∧ areNumbers numbers ∧
      2 ≤ numbers.length := by
  have hhead := head_of_dottedRun? h
  rw [dottedRun?] at h
  split at h
  · next hrun =>
    cases h
    obtain ⟨rest, happend, hrest, hnumbers, -⟩ :=
      exists_joined_numbersFrom [] cs (by simp) (Or.inr hhead)
    exact ⟨rest, happend, hrest, hnumbers, by simpa using (Bool.and_eq_true_iff.mp hrun).2⟩
  · cases h

/-! Where no run is. -/

theorem hasRun_append_of_right (cs : List Char) {rest : List Char} (h : hasRun rest = true) :
    hasRun (cs ++ rest) = true := by
  induction cs with
  | nil => exact h
  | cons c cs ih => rw [List.cons_append, hasRun, ih, Bool.or_true]

theorem hasRun_joined {numbers : List (List Char)} (htwo : 2 ≤ numbers.length)
    (h : areNumbers numbers) (rest : List Char) : hasRun (joined numbers ++ rest) = true := by
  obtain ⟨n, m, numbers, rfl⟩ : ∃ n m more, numbers = n :: m :: more := by
    match numbers, htwo with
    | n :: m :: more, _ => exact ⟨n, m, more, rfl⟩
  obtain ⟨⟨hn, hdigits⟩, hmore⟩ := areNumbers_cons.mp h
  have hhead := head?_joined (List.cons_ne_nil m numbers) hmore rest
  rw [← List.dropLast_append_getLast hn, joined_cons_cons, List.append_assoc, List.append_assoc]
  refine hasRun_append_of_right _ ?_
  rw [List.singleton_append, List.cons_append, hasRun, hdigits _ (List.getLast_mem hn), opensDotted,
    hhead]
  rfl

theorem dottedRun?_eq_none {cs : List Char} (h : hasRun cs = false) : dottedRun? cs = none := by
  cases hrun : dottedRun? cs with
  | none => rfl
  | some numbers =>
    obtain ⟨rest, rfl, -, hnumbers, htwo⟩ := exists_joined_dottedRun? hrun
    rw [hasRun_joined htwo hnumbers] at h
    cases h

theorem lastRunAfter_eq_drop (skip : Nat) (cs : List Char) :
    lastRunAfter skip cs = lastRunAfter 0 (cs.drop skip) := by
  induction skip generalizing cs with
  | zero => rfl
  | succ skip ih =>
    cases cs with
    | nil => rfl
    | cons c cs => exact ih cs

theorem lastRunAfter_eq_none {cs : List Char} (h : hasRun cs = false) : lastRunAfter 0 cs = none := by
  induction cs with
  | nil => rfl
  | cons c cs ih =>
    rw [lastRunAfter, dottedRun?_eq_none h]
    rw [hasRun, Bool.or_eq_false_iff] at h
    exact ih h.2

theorem continues_append {cs : List Char} (h : continues cs = true) (more : List Char) :
    continues (cs ++ more) = true := by
  cases cs with
  | nil => cases h
  | cons c cs =>
    rw [continues, Bool.or_eq_true] at h ⊢
    refine h.imp id fun h => ?_
    rw [opensDotted, Bool.and_eq_true] at h
    rw [List.cons_append, opensDotted, h.1]
    cases cs with
    | nil => cases h.2
    | cons d cs => exact h.2

theorem hasRun_append_of_left {cs : List Char} (h : hasRun cs = true) (more : List Char) :
    hasRun (cs ++ more) = true := by
  induction cs with
  | nil => cases h
  | cons c cs ih =>
    rw [hasRun, Bool.or_eq_true, Bool.and_eq_true] at h
    rw [List.cons_append, hasRun, Bool.or_eq_true, Bool.and_eq_true]
    refine h.imp (fun h => ⟨h.1, ?_⟩) ih
    cases cs with
    | nil => cases h.2
    | cons d cs =>
      cases cs with
      | nil => simp [opensDotted] at h
      | cons e cs => exact h.2

/-! The last run is found. -/

/-- What a run begins with runs into what follows: it ends with a digit, or with a digit and a dot. -/
theorem continues_reverse_of_prefix {numbers : List (List Char)} (h : areNumbers numbers)
    {front : List Char} (hne : front ≠ []) (hfront : front <+: joined numbers) :
    continues front.reverse = true := by
  induction numbers generalizing front with
  | nil => exact absurd (List.prefix_nil.mp hfront) hne
  | cons n numbers ih =>
    obtain ⟨⟨hn, hdigits⟩, hnumbers⟩ := areNumbers_cons.mp h
    have hwithin : front <+: n → continues front.reverse = true := by
      intro hfront
      have hlast := hdigits _ (hfront.subset (List.getLast_mem hne))
      rw [continues, List.head?_reverse, List.getLast?_eq_some_getLast hne, Option.any_some, hlast,
        Bool.true_or]
    cases numbers with
    | nil => exact hwithin (by rwa [joined_singleton] at hfront)
    | cons m numbers =>
      obtain ⟨more, happend⟩ := hfront
      rw [joined_cons_cons] at happend
      rcases List.append_eq_append_iff.mp happend with ⟨tail, rfl, -⟩ | ⟨tail, rfl, htail⟩
      · exact hwithin (List.prefix_append front tail)
      · cases tail with
        | nil => exact hwithin (by rw [List.append_nil])
        | cons dot tail =>
          obtain ⟨rfl, hjoined⟩ := List.cons.inj htail
          rw [List.reverse_append, List.reverse_cons, List.append_assoc]
          cases tail with
          | nil =>
            -- the front ends with the dot behind the first number
            have hlast := hdigits _ (List.getLast_mem hn)
            rw [List.reverse_nil, List.nil_append, List.singleton_append, continues, opensDotted,
              List.head?_reverse, List.getLast?_eq_some_getLast hn, Option.any_some, hlast]
            simp
          | cons c tail =>
            exact continues_append (ih hnumbers (List.cons_ne_nil c tail) ⟨more, hjoined.symm⟩) _

/-- A run in front of a text is the last one unless there is another one behind it. -/
theorem lastRunAfter_joined {numbers : List (List Char)} (htwo : 2 ≤ numbers.length)
    (h : areNumbers numbers) {back : List Char} (hback : continues back = false) :
    lastRunAfter 0 (joined numbers ++ back) =
      (lastRunAfter 0 back).or (some ⟨numbers, joined numbers ++ back⟩) := by
  have hne := List.ne_nil_of_length_pos (Nat.lt_of_lt_of_le Nat.zero_lt_two htwo)
  have hrun := dottedRun?_joined htwo h hback
  have hlength := length_joined hne
  cases hjoined : joined numbers with
  | nil =>
    have hhead := head?_joined hne h []
    rw [hjoined] at hhead
    cases hhead
  | cons c cs =>
    rw [hjoined, List.length_cons] at hlength
    rw [hjoined, List.cons_append] at hrun
    rw [List.cons_append, lastRunAfter, hrun]
    dsimp only
    rw [hlength, lastRunAfter_eq_drop, Nat.add_sub_cancel, List.drop_left]

theorem lastRunAfter_of_isLastRun {front back : List Char} {numbers : List (List Char)}
    (h : IsLastRun front numbers back) :
    lastRunAfter 0 (front ++ (joined numbers ++ back)) = some ⟨numbers, joined numbers ++ back⟩ := by
  have hshorter : ∀ {first more : List Char}, continues (first ++ more).reverse = false →
      continues more.reverse = false := by
    intro first more hfront
    rw [List.reverse_append] at hfront
    exact Bool.eq_false_iff.mpr fun hmore => by simp [continues_append hmore] at hfront
  induction hlength : front.length using Nat.strong_induction_on generalizing front with
  | _ length ih =>
    cases front with
    | nil =>
      rw [List.nil_append, lastRunAfter_joined h.two h.digits h.ends, lastRunAfter_eq_none h.last]
      rfl
    | cons c front =>
      cases hrun : dottedRun? (c :: front ++ (joined numbers ++ back)) with
      | none =>
        rw [List.cons_append] at hrun ⊢
        rw [lastRunAfter, hrun]
        have hbegins : continues front.reverse = false := @hshorter [c] front h.begins
        exact ih front.length (by simp [← hlength]) { h with begins := hbegins } rfl
      | some first =>
        obtain ⟨rest, happend, hrest, hfirst, htwo⟩ := exists_joined_dottedRun? hrun
        rcases List.append_eq_append_iff.mp happend with ⟨tail, htail, -⟩ | ⟨tail, htail, rfl⟩
        · -- the numbers found would reach into the run
          have hinto := continues_reverse_of_prefix hfirst (List.cons_ne_nil c front) ⟨tail, htail.symm⟩
          rw [h.begins] at hinto
          cases hinto
        · have hhead : joined first ≠ [] := by
            intro hnil
            have hhead := head?_joined (List.ne_nil_of_length_pos (by omega)) hfirst []
            rw [hnil] at hhead
            cases hhead
          have hless : tail.length < length := by
            have := List.length_pos_of_ne_nil hhead
            rw [← hlength, htail, List.length_append]
            omega
          have hbegins : continues tail.reverse = false := hshorter (by rw [← htail]; exact h.begins)
          rw [happend, lastRunAfter_joined htwo hfirst hrest,
            ih tail.length hless { h with begins := hbegins } rfl]
          rfl

/-- A character in front of a text that a run may begin in. -/
theorem front_of_continues {c : Char} {front : List Char} (h : continues front.reverse = false)
    (hc : continues (c :: front).reverse = true) :
    isDigit c = true ∧ (front = [] ∨ front = ['.']) := by
  rw [List.reverse_cons] at hc
  have hdot : front = ['.'] ↔ front.reverse = ['.'] := by
    rw [List.reverse_eq_iff]
    rfl
  rw [← List.reverse_eq_nil_iff, hdot]
  generalize front.reverse = back at h hc ⊢
  cases back with
  | nil => simpa [continues, opensDotted] using hc
  | cons x xs =>
    cases xs with
    | nil => simp_all [continues, opensDotted]
    | cons y xs => simp_all [continues, opensDotted]

/-- Where a dot stands between digits, there is a last run. -/
theorem exists_isLastRun {cs : List Char} (h : hasRun cs = true) :
    ∃ front numbers back, cs = front ++ (joined numbers ++ back) ∧ IsLastRun front numbers back := by
  induction cs with
  | nil => cases h
  | cons c cs ih =>
    cases hmore : hasRun cs with
    | true =>
      obtain ⟨front, numbers, back, rfl, hrun⟩ := ih hmore
      cases hc : continues (c :: front).reverse with
      | false => exact ⟨c :: front, numbers, back, rfl, { hrun with begins := hc }⟩
      | true =>
        have htwo := hrun.two
        obtain ⟨hdigit, rfl | rfl⟩ := front_of_continues hrun.begins hc
        · -- one more digit of the first number
          match numbers, htwo, hrun with
          | n :: m :: numbers, _, hrun =>
            obtain ⟨⟨hn, hdigits⟩, hnumbers⟩ := areNumbers_cons.mp hrun.digits
            have hfirst : areNumbers ((c :: n) :: m :: numbers) :=
              areNumbers_cons.mpr ⟨⟨List.cons_ne_nil c n, by simpa using ⟨hdigit, hdigits⟩⟩, hnumbers⟩
            refine ⟨[], (c :: n) :: m :: numbers, back, ?_, { hrun with digits := hfirst }⟩
            rw [joined_cons_cons, joined_cons_cons]
            rfl
        · -- one more number
          obtain ⟨n, numbers, rfl⟩ := List.exists_cons_of_ne_nil (List.ne_nil_of_length_pos (l := numbers) (by omega))
          have hfirst : areNumbers ([c] :: n :: numbers) :=
            areNumbers_cons.mpr ⟨⟨List.cons_ne_nil c [], by simpa using hdigit⟩, hrun.digits⟩
          refine ⟨[], [c] :: n :: numbers, back, ?_,
            { hrun with digits := hfirst, begins := rfl, two := by simp }⟩
          rw [joined_cons_cons]
          rfl
    | false =>
      rw [hasRun, hmore, Bool.or_false, Bool.and_eq_true] at h
      obtain ⟨hdigit, hdot⟩ := h
      cases cs with
      | nil => cases hdot
      | cons dot cs =>
        obtain ⟨hpoint, hhead⟩ := Bool.and_eq_true_iff.mp hdot
        obtain ⟨back, happend, hback, hdigits, hne⟩ := exists_joined_numbersFrom [] cs (by simp) (Or.inr hhead)
        obtain ⟨n, numbers, hnumbers⟩ := List.exists_cons_of_ne_nil hne
        rw [List.reverse_nil, List.nil_append] at happend
        rw [hnumbers] at happend hdigits
        have hfirst : areNumbers ([c] :: n :: numbers) :=
          areNumbers_cons.mpr ⟨⟨List.cons_ne_nil c [], by simpa using hdigit⟩, hdigits⟩
        have hlast : hasRun back = false := by
          rw [Bool.eq_false_iff]
          intro hrun
          rw [happend, ← List.cons_append] at hmore
          rw [hasRun_append_of_right _ hrun] at hmore
          cases hmore
        refine ⟨[], [c] :: n :: numbers, back, ?_, ⟨by simp, hfirst, rfl, hback, hlast⟩⟩
        rw [joined_cons_cons, List.append_assoc, happend, beq_iff_eq.mp hpoint]
        rfl

/-- The last run of a release, and what stands around it. -/
theorem lastRun_eq_some_iff {release : String} {run : Run} :
    lastRun release = some run ↔ ∃ front back, release.toList = front ++ run.tail ∧
      run.tail = joined run.numbers ++ back ∧ IsLastRun front run.numbers back := by
  constructor
  · intro h
    have hrun : hasRun release.toList = true := by
      rw [← Bool.not_eq_false]
      intro hno
      rw [lastRun, lastRunAfter_eq_none hno] at h
      cases h
    obtain ⟨front, numbers, back, happend, hlast⟩ := exists_isLastRun hrun
    rw [lastRun, happend, lastRunAfter_of_isLastRun hlast] at h
    cases h
    exact ⟨front, back, happend, rfl, hlast⟩
  · rintro ⟨front, back, happend, htail, hlast⟩
    rw [lastRun, happend, htail, lastRunAfter_of_isLastRun hlast, ← htail]

/-! The run of a version. -/

/-- White space behind a run is no part of it. -/
theorem exists_stripList_joined {numbers : List (List Char)} (hne : numbers ≠ [])
    (h : areNumbers numbers) (back : List Char) :
    ∃ kept, kept <+: back ∧ Text.stripList (joined numbers ++ back) = joined numbers ++ kept := by
  have hblank : ∀ c ∈ (joined numbers ++ back).head?, Text.isBlank c = false := by
    intro c hc
    have hhead := head?_joined hne h back
    rw [Option.mem_def.mp hc] at hhead
    exact Text.isBlank_of_isDigit hhead
  obtain ⟨tail, htail, happend⟩ := Text.trimEndList_append (joined numbers ++ back)
  rw [Text.stripList, Text.dropWhile_eq_self hblank]
  rcases List.append_eq_append_iff.mp happend with ⟨cut, hcut, rfl⟩ | ⟨kept, hkept, rfl⟩
  · -- the run ends with a digit, so nothing is cut from it
    have hlast := isDigit_getLast?_joined hne h
    rw [hcut, List.getLast?_append] at hlast
    cases hc : cut.getLast? with
    | none =>
      rw [List.getLast?_eq_none_iff.mp hc, List.append_nil] at hcut
      exact ⟨[], List.nil_prefix, by rw [List.append_nil]; exact hcut.symm⟩
    | some c =>
      rw [hc, Option.some_or, Option.any_some] at hlast
      have hno := htail c (List.mem_append_left back (List.mem_of_getLast? hc))
      rw [Text.isBlank_of_isDigit hlast] at hno
      cases hno
  · exact ⟨kept, List.prefix_append kept tail, hkept⟩

/-- A version has the run that it was found by. -/
theorem lastRun_version {release : String} {run : Run} (h : lastRun release = some run) :
    lastRun run.version = some ⟨run.numbers, Text.stripList run.tail⟩ := by
  obtain ⟨front, back, -, htail, hlast⟩ := lastRun_eq_some_iff.mp h
  have hne := List.ne_nil_of_length_pos (Nat.lt_of_lt_of_le Nat.zero_lt_two hlast.two)
  obtain ⟨kept, ⟨more, rfl⟩, hstrip⟩ := exists_stripList_joined hne hlast.digits back
  rw [← htail] at hstrip
  refine lastRun_eq_some_iff.mpr ⟨[], kept, by simp [Run.version], hstrip, ?_⟩
  refine ⟨hlast.two, hlast.digits, rfl, ?_, ?_⟩
  · exact Bool.eq_false_iff.mpr fun hkept => by simpa [hlast.ends] using continues_append hkept more
  · exact Bool.eq_false_iff.mpr fun hkept => by
      simpa [hlast.last] using hasRun_append_of_left hkept more

end Manifest.Release
