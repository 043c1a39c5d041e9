import Mathlib.Data.List.Lex
import Mathlib.Data.Prod.Lex
import Mathlib.Order.BooleanAlgebra.Basic
import Manifest.Proofs.Release.Run
import Manifest.Proofs.Traversal

/-! Which release is chosen. Releases that carry a version are ranked by their numbers, a version that is
nothing but its run above one with more behind it, and a later release above an earlier one; of those
that a request admits the greatest is chosen. A plain version that was chosen is chosen again when it
is asked for itself. -/

set_option autoImplicit false

namespace Manifest.Release

open Text (isDigit isDigitLike NumeralError)

/-! What is asked for. -/

/-- The numbers that a request names: digits between dots, white space around them aside. -/
def Names (requested : String) (wanted : List Nat) : Prop :=
  ∃ groups, groups ≠ [] ∧ Text.stripList requested.toList = joined groups ∧
    List.Forall₂ (fun group n => Text.decimal group = .ok n) groups wanted

/-- No letter of ASCII shows a digit. -/
theorem isAlpha_of_isDigitLike {c : Char} (h : isDigitLike c = true) : c.isAlpha = false := by
  have hzeros : ∀ start ∈ Text.digitZeros, start + 9 < 65 ∨ 122 < start := by
    decide
  have hsigns : ∀ range ∈ Text.digitSigns, 122 < range.1 := by
    decide
  have hapart : c.toNat < 65 ∨ 122 < c.toNat := by
    rw [isDigitLike, Bool.or_eq_true, isDigit, Text.digitValue?, Option.isSome_map, List.find?_isSome] at h
    rcases h with ⟨start, hstart, hdigit⟩ | hsign
    · rw [Bool.and_eq_true, decide_eq_true_eq, decide_eq_true_eq] at hdigit
      have hrange := hzeros start hstart
      omega
    · obtain ⟨range, hrange, hlow, -⟩ := (Text.Ranges.has_iff Text.digitSigns c).mp hsign
      exact Or.inr (Nat.lt_of_lt_of_le (hsigns range hrange) hlow)
  rw [Bool.eq_false_iff]
  intro halpha
  unfold Char.isAlpha Char.isUpper Char.isLower at halpha
  simp only [Bool.or_eq_true, Bool.and_eq_true, decide_eq_true_eq, UInt32.le_iff_toNat_le,
    ge_iff_le] at halpha
  change (65 ≤ c.toNat ∧ c.toNat ≤ 90) ∨ (97 ≤ c.toNat ∧ c.toNat ≤ 122) at halpha
  omega

theorem isAlpha_of_toLower {c : Char} (h : c.toLower = 'l') : c.isAlpha = true := by
  unfold Char.toLower at h
  split at h
  · next hupper =>
    unfold Char.isAlpha Char.isUpper
    rw [Bool.or_eq_true, decide_eq_true_eq]
    exact Or.inl hupper
  · rw [h]
    rfl

theorem isDigitLike_of_isDigit {c : Char} (h : isDigit c = true) : isDigitLike c = true := by
  rw [isDigitLike, h, Bool.true_or]

/-- A request that begins with what shows a digit is not for the best version of all. -/
theorem asksLatest_of_isDigitLike {requested : String}
    (h : (Text.stripList requested.toList).head?.any isDigitLike = true) :
    asksLatest requested = false := by
  rw [asksLatest, beq_eq_false_iff_ne, Text.lowerAscii, Text.strip]
  intro hlatest
  cases hcs : Text.stripList requested.toList with
  | nil => simp [hcs] at h
  | cons c cs =>
    rw [hcs] at h hlatest
    have hlower : c.toLower = 'l' := by
      have hchars := congrArg String.toList hlatest
      rw [String.toList_map, String.toList_ofList] at hchars
      exact (List.cons.inj hchars).1
    have halpha := isAlpha_of_toLower hlower
    rw [isAlpha_of_isDigitLike h] at halpha
    cases halpha

/-- A request that begins with a digit is not for the best version of all. -/
theorem asksLatest_eq_false {requested : String}
    (h : (Text.stripList requested.toList).head?.any isDigit = true) : asksLatest requested = false := by
  refine asksLatest_of_isDigitLike ?_
  rw [Option.any_eq_true] at h ⊢
  obtain ⟨c, hc, hdigit⟩ := h
  exact ⟨c, hc, isDigitLike_of_isDigit hdigit⟩

theorem isDigit_of_digitsValue {cs : List Char} {acc n : Nat} (h : Text.digitsValue cs acc = some n) :
    ∀ c ∈ cs, isDigit c = true := by
  induction cs generalizing acc with
  | nil => simp
  | cons c cs ih =>
    rw [Text.digitsValue] at h
    obtain ⟨d, hd, hmore⟩ := Option.bind_eq_some_iff.mp h
    intro x hx
    rcases List.mem_cons.mp hx with rfl | hx
    · rw [isDigit, hd]
      rfl
    · exact ih hmore x hx

theorem isNumber_of_decimal {cs : List Char} {n : Nat} (h : Text.decimal cs = .ok n) :
    cs ≠ [] ∧ ∀ c ∈ cs, isDigit c = true := by
  rw [Text.decimal] at h
  split at h
  · cases h
  · next hne =>
    split at h
    · cases h
    · next hvalue => exact ⟨by simpa using hne, isDigit_of_digitsValue hvalue⟩

theorem areNumbers_of_decimals {groups : List (List Char)} {wanted : List Nat}
    (h : List.Forall₂ (fun group n => Text.decimal group = .ok n) groups wanted) :
    areNumbers groups := by
  induction h with
  | nil => exact areNumbers_nil
  | cons hgroup _ ih => exact areNumbers_cons.mpr ⟨isNumber_of_decimal hgroup, ih⟩

/-! The parts of a text between dots. -/

theorem splitDots_ne_nil (cs : List Char) : splitDots cs ≠ [] := by
  cases cs with
  | nil => exact List.cons_ne_nil _ _
  | cons c cs =>
    rw [splitDots]
    split
    · exact List.cons_ne_nil _ _
    · split <;> exact List.cons_ne_nil _ _

theorem joined_splitDots (cs : List Char) : joined (splitDots cs) = cs := by
  induction cs with
  | nil => rfl
  | cons c cs ih =>
    obtain ⟨part, parts, hparts⟩ := List.exists_cons_of_ne_nil (splitDots_ne_nil cs)
    rw [hparts] at ih
    rw [splitDots, hparts]
    split
    · next hdot =>
      rw [joined_cons_cons, ih, beq_iff_eq.mp hdot]
      rfl
    · cases parts with
      | nil =>
        rw [joined_singleton] at ih ⊢
        rw [ih]
      | cons next parts =>
        rw [joined_cons_cons] at ih
        rw [joined_cons_cons, List.cons_append, ih]

theorem not_isDigitLike_dot : isDigitLike '.' = false := by
  decide

theorem splitDots_digits {digits : List Char} (h : ∀ c ∈ digits, isDigitLike c = true) (cs : List Char)
    {part : List Char} {parts : List (List Char)} (hcs : splitDots cs = part :: parts) :
    splitDots (digits ++ cs) = (digits ++ part) :: parts := by
  induction digits with
  | nil => exact hcs
  | cons c digits ih =>
    have hc := h c List.mem_cons_self
    have hpoint : (c == '.') = false := by
      rw [beq_eq_false_iff_ne]
      rintro rfl
      rw [not_isDigitLike_dot] at hc
      cases hc
    rw [List.cons_append, splitDots, hpoint, ih fun x hx => h x (List.mem_cons_of_mem _ hx)]
    rfl

/-- Groups of signs that show digits are the parts of what they make when they are joined by dots. -/
theorem splitDots_joined {groups : List (List Char)} (hne : groups ≠ [])
    (h : ∀ group ∈ groups, ∀ c ∈ group, isDigitLike c = true) : splitDots (joined groups) = groups := by
  induction groups with
  | nil => exact absurd rfl hne
  | cons group groups ih =>
    obtain ⟨hdigits, hgroups⟩ := List.forall_mem_cons.mp h
    cases groups with
    | nil =>
      have hend := splitDots_digits hdigits [] (rfl : splitDots [] = [[]])
      rw [List.append_nil] at hend
      rw [joined_singleton, hend]
    | cons next groups =>
      have hmore : splitDots ('.' :: joined (next :: groups)) = [] :: next :: groups := by
        rw [splitDots, ih (List.cons_ne_nil next groups) hgroups]
        rfl
      rw [joined_cons_cons, splitDots_digits hdigits _ hmore, List.append_nil]

theorem requestedKey?_eq_ok_some_iff {requested : String} {wanted : List Nat} :
    requestedKey? requested = .ok (some wanted) ↔ Names requested wanted := by
  rw [requestedKey?]
  constructor
  · intro h
    split at h
    · cases hparts : (splitDots (Text.stripList requested.toList)).mapM Text.decimal with
      | error e =>
        rw [hparts] at h
        cases h
      | ok numbers =>
        rw [hparts] at h
        cases h
        exact ⟨_, splitDots_ne_nil _, (joined_splitDots _).symm, mapM_eq_ok_iff.mp hparts⟩
    · cases h
  · rintro ⟨groups, hne, hcs, hdecimals⟩
    have hnumbers := areNumbers_of_decimals hdecimals
    have hall : (groups.all fun part => !part.isEmpty && part.all Text.isDigitLike) = true := by
      rw [List.all_eq_true]
      intro group hgroup
      obtain ⟨hnonempty, hdigits⟩ := hnumbers group hgroup
      rw [Bool.and_eq_true, List.all_eq_true]
      exact ⟨by simpa using hnonempty, fun c hc => isDigitLike_of_isDigit (hdigits c hc)⟩
    rw [hcs, splitDots_joined hne fun group hgroup c hc =>
      isDigitLike_of_isDigit ((hnumbers group hgroup).2 c hc), hall, if_pos rfl, mapM_eq_ok_iff.mpr hdecimals]
    rfl

/-! What is offered, and how it is ranked. -/

/-- A release that carries a version: its place among the releases, its run and the numbers of that. -/
structure Offer where
  place : Nat
  run : Run
  key : List Nat

namespace Offer

/-- What a release is chosen by: first its numbers, then whether it is plain, then its place. -/
def rank (o : Offer) : List Nat ×ₗ Bool ×ₗ Nat :=
  toLex (o.key, toLex (o.run.isPlain, o.place))

/-- The release as one that can be chosen. -/
def candidate (o : Offer) : Candidate :=
  ⟨o.key, o.run.isPlain, o.run.version⟩

/-- The same release one place further on. -/
def later (o : Offer) : Offer :=
  { o with place := o.place + 1 }

/-- Whether a release is among some releases at its place, with the run and the numbers that it has. -/
def isAmong (o : Offer) (releases : List String) : Prop :=
  (∃ release, releases[o.place]? = some release ∧ lastRun release = some o.run) ∧ o.run.key = .ok o.key

/--
Whether a release is one that a request admits: all are if the best of all is asked for, else those
whose numbers begin with those that are named.
-/
def isEligible (requested : String) (releases : List String) (o : Offer) : Prop :=
  o.isAmong releases ∧
    (asksLatest requested = true ∨ ∃ wanted, Names requested wanted ∧ wanted <+: o.key)

/-- What some releases offer, the first one by itself. -/
theorem isAmong_cons {o : Offer} {release : String} {rest : List String} :
    o.isAmong (release :: rest) ↔
      (o.place = 0 ∧ lastRun release = some o.run ∧ o.run.key = .ok o.key) ∨
        ∃ x : Offer, x.isAmong rest ∧ x.later = o := by
  obtain ⟨place, run, key⟩ := o
  cases place with
  | zero =>
    refine ⟨fun ⟨⟨first, hfirst, hrun⟩, hkey⟩ => ?_, ?_⟩
    · cases hfirst
      exact Or.inl ⟨rfl, hrun, hkey⟩
    · rintro (⟨-, hrun, hkey⟩ | ⟨x, -, hx⟩)
      · exact ⟨⟨release, rfl, hrun⟩, hkey⟩
      · simp [later] at hx
  | succ place =>
    refine ⟨fun h => Or.inr ⟨⟨place, run, key⟩, h, rfl⟩, ?_⟩
    rintro (⟨hplace, -⟩ | ⟨x, hx, hlater⟩)
    · cases hplace
    · cases hlater
      exact hx

/-- A later release beats an earlier one if it is ranked above it. -/
theorem beats_iff {earlier late : Offer} (h : earlier.place < late.place) :
    late.candidate.beats earlier.candidate = true ↔ earlier.rank ≤ late.rank := by
  rw [Candidate.beats, rank, rank, Prod.Lex.toLex_le_toLex, Prod.Lex.toLex_le_toLex, Bool.or_eq_true,
    Bool.and_eq_true, decide_eq_true_eq, beq_iff_eq]
  refine or_congr Iff.rfl (and_congr eq_comm ?_)
  simp only [candidate]
  cases late.run.isPlain <;> cases earlier.run.isPlain <;> simp [h.le]

/-- What is offered at the same place is the same. -/
theorem eq_of_place {a b : Offer} {releases : List String} (ha : a.isAmong releases)
    (hb : b.isAmong releases) (h : a.place = b.place) : a = b := by
  obtain ⟨⟨release, hrelease, harun⟩, hakey⟩ := ha
  obtain ⟨⟨release', hrelease', hbrun⟩, hbkey⟩ := hb
  rw [h, hrelease', Option.some.injEq] at hrelease
  rw [hrelease, harun, Option.some.injEq] at hbrun
  rw [hbrun, hbkey, Except.ok.injEq] at hakey
  cases a
  cases b
  simp_all

end Offer

/-- The candidates are what the releases offer, in order. -/
theorem exists_offers {releases : List String} {cs : List Candidate} (h : candidates releases = .ok cs) :
    ∃ offers : List Offer, cs = offers.map Offer.candidate ∧
      offers.Pairwise (fun a b => a.place < b.place) ∧ ∀ o, o ∈ offers ↔ o.isAmong releases := by
  induction releases generalizing cs with
  | nil =>
    cases h
    refine ⟨[], rfl, List.Pairwise.nil, fun o => ⟨nofun, ?_⟩⟩
    rintro ⟨⟨release, hrelease, -⟩, -⟩
    simp at hrelease
  | cons release rest ih =>
    have hlater : ∀ {offers : List Offer}, offers.Pairwise (fun a b => a.place < b.place) →
        (offers.map Offer.later).Pairwise fun a b => a.place < b.place := by
      intro offers hoffers
      rw [List.pairwise_map]
      exact hoffers.imp fun hlt => Nat.succ_lt_succ hlt
    rw [candidates] at h
    cases hrun : lastRun release with
    | none =>
      rw [hrun] at h
      obtain ⟨offers, rfl, hsorted, hmem⟩ := ih h
      refine ⟨offers.map Offer.later, by rw [List.map_map]; rfl, hlater hsorted, fun o => ?_⟩
      rw [List.mem_map, Offer.isAmong_cons, hrun]
      simp [hmem]
    | some run =>
      cases hkey : run.key with
      | error e =>
        rw [hrun] at h
        simp [hkey, bind, Except.bind] at h
      | ok key =>
        cases hothers : candidates rest with
        | error e =>
          rw [hrun] at h
          simp [hkey, hothers, bind, Except.bind] at h
        | ok others =>
          rw [hrun] at h
          simp only [hkey, hothers, bind, Except.bind, pure, Except.pure, Except.ok.injEq] at h
          obtain ⟨offers, rfl, hsorted, hmem⟩ := ih hothers
          refine ⟨⟨0, run, key⟩ :: offers.map Offer.later, ?_, ?_, fun o => ?_⟩
          · rw [← h]
            rw [List.map_cons, List.map_map]
            rfl
          · refine List.pairwise_cons.mpr ⟨fun o ho => ?_, hlater hsorted⟩
            obtain ⟨x, -, rfl⟩ := List.mem_map.mp ho
            exact Nat.succ_pos x.place
          · rw [List.mem_cons, List.mem_map, Offer.isAmong_cons, hrun]
            refine or_congr ⟨?_, ?_⟩ (exists_congr fun x => and_congr (hmem x) Iff.rfl)
            · rintro rfl
              exact ⟨rfl, rfl, hkey⟩
            · obtain ⟨place, run', key'⟩ := o
              rintro ⟨hplace, hsame, hkey'⟩
              cases hplace
              cases hsame
              rw [hkey, Except.ok.injEq] at hkey'
              rw [hkey']

/-- The best candidate is that of the greatest offer. -/
theorem best?_offers {first : Offer} {rest : List Offer}
    (h : (first :: rest).Pairwise fun a b => a.place < b.place) :
    ∃ best ∈ first :: rest, best? ((first :: rest).map Offer.candidate) = some best.candidate ∧
      ∀ o ∈ first :: rest, o.rank ≤ best.rank := by
  induction rest generalizing first with
  | nil =>
    refine ⟨first, List.mem_cons_self, rfl, fun o ho => ?_⟩
    rw [List.mem_singleton.mp ho]
  | cons second rest ih =>
    obtain ⟨hfirst, hmore⟩ := List.pairwise_cons.mp h
    obtain ⟨hsecond, hrest⟩ := List.pairwise_cons.mp hmore
    have hbeats := Offer.beats_iff (hfirst second List.mem_cons_self)
    rw [List.map_cons, List.map_cons, best?, List.foldl_cons]
    cases hwins : second.candidate.beats first.candidate with
    | true =>
      obtain ⟨best, hmem, hbest, hmax⟩ := ih hmore
      refine ⟨best, List.mem_cons_of_mem _ hmem, hbest, fun o ho => ?_⟩
      rcases List.mem_cons.mp ho with rfl | ho
      · exact (hbeats.mp hwins).trans (hmax second List.mem_cons_self)
      · exact hmax o ho
    | false =>
      have hless : second.rank ≤ first.rank := by
        refine le_of_not_ge fun hle => ?_
        rw [hbeats.mpr hle] at hwins
        cases hwins
      obtain ⟨best, hmem, hbest, hmax⟩ := ih (List.pairwise_cons.mpr
        ⟨fun o ho => hfirst o (List.mem_cons_of_mem _ ho), hrest⟩)
      refine ⟨best, ?_, hbest, fun o ho => ?_⟩
      · rcases List.mem_cons.mp hmem with rfl | hmem
        · exact List.mem_cons_self
        · exact List.mem_cons_of_mem _ (List.mem_cons_of_mem _ hmem)
      · rcases List.mem_cons.mp ho with rfl | ho
        · exact hmax o List.mem_cons_self
        · rcases List.mem_cons.mp ho with rfl | ho
          · exact hless.trans (hmax first List.mem_cons_self)
          · exact hmax o (List.mem_cons_of_mem _ ho)

/-! The choice. -/

/-- The offer that a request has chosen: the greatest of those that it admits. -/
structure IsBest (requested : String) (releases : List String) (best : Offer) : Prop where
  eligible : best.isEligible requested releases
  greatest : ∀ o : Offer, o.isEligible requested releases → o.rank ≤ best.rank

/-- There is one best offer at most. -/
theorem IsBest.unique {requested : String} {releases : List String} {a b : Offer}
    (ha : IsBest requested releases a) (hb : IsBest requested releases b) : a = b := by
  have hrank := le_antisymm (hb.greatest a ha.eligible) (ha.greatest b hb.eligible)
  refine Offer.eq_of_place ha.eligible.1 hb.eligible.1 ?_
  exact congrArg (fun rank => (ofLex (ofLex rank).2).2) hrank

/-- The candidates that a request admits are those of the offers that it admits. -/
theorem eligible_offers {requested : String} {releases : List String}
    (h : ∀ e, eligible requested releases ≠ .error (.numeral e)) :
    (∃ offers : List Offer, eligible requested releases = .ok (offers.map Offer.candidate) ∧
      offers.Pairwise (fun a b => a.place < b.place) ∧
      ∀ o, o ∈ offers ↔ o.isEligible requested releases) ∨
    eligible requested releases = .error (.noMatch requested releases) ∧
      ∀ o : Offer, ¬ o.isEligible requested releases := by
  rw [eligible] at h ⊢
  cases hall : candidates releases with
  | error e =>
    rw [hall] at h
    exact absurd rfl (h e)
  | ok all =>
    obtain ⟨offers, rfl, hsorted, hmem⟩ := exists_offers hall
    rw [hall] at h
    simp only [Except.mapError, bind, Except.bind, pure, Except.pure] at h ⊢
    cases hlatest : asksLatest requested with
    | true =>
      refine Or.inl ⟨offers, rfl, hsorted, fun o => ?_⟩
      rw [hmem, Offer.isEligible, hlatest]
      simp
    | false =>
      rw [hlatest] at h
      cases hwanted : requestedKey? requested with
      | error e =>
        rw [hwanted] at h
        exact absurd rfl (h e)
      | ok wanted =>
        cases wanted with
        | none =>
          refine Or.inr ⟨rfl, fun o ho => ?_⟩
          obtain ⟨-, hasks | ⟨wanted, hnames, -⟩⟩ := ho
          · rw [hlatest] at hasks
            cases hasks
          · rw [requestedKey?_eq_ok_some_iff.mpr hnames] at hwanted
            cases hwanted
        | some wanted =>
          have hnames := requestedKey?_eq_ok_some_iff.mp hwanted
          refine Or.inl ⟨offers.filter fun o => wanted.isPrefixOf o.key,
            congrArg Except.ok List.filter_map, hsorted.filter _, fun o => ?_⟩
          rw [List.mem_filter, hmem, Offer.isEligible, hlatest, List.isPrefixOf_iff_prefix]
          refine and_congr Iff.rfl ⟨fun hprefix => Or.inr ⟨wanted, hnames, hprefix⟩, ?_⟩
          rintro (hasks | ⟨other, hother, hprefix⟩)
          · cases hasks
          · rw [requestedKey?_eq_ok_some_iff.mpr hother] at hwanted
            cases hwanted
            exact hprefix

/-- The version of the best offer is chosen, or there is none. -/
theorem select_cases {requested : String} {releases : List String}
    (h : ∀ e, select requested releases ≠ .error (.numeral e)) :
    (∃ best, IsBest requested releases best ∧ select requested releases = .ok best.run.version) ∨
      select requested releases = .error (.noMatch requested releases) ∧
        ∀ o : Offer, ¬ o.isEligible requested releases := by
  have hread : ∀ e, eligible requested releases ≠ .error (.numeral e) := by
    intro e he
    refine h e ?_
    rw [select, he]
    rfl
  rcases eligible_offers hread with ⟨offers, heligible, hsorted, hmem⟩ | ⟨hnone, hno⟩
  · rw [select, heligible]
    cases offers with
    | nil => exact Or.inr ⟨rfl, fun o ho => List.not_mem_nil ((hmem o).mpr ho)⟩
    | cons first rest =>
      obtain ⟨best, hbest, hbest?, hmax⟩ := best?_offers hsorted
      refine Or.inl ⟨best, ⟨(hmem best).mp hbest, fun o ho => hmax o ((hmem o).mpr ho)⟩, ?_⟩
      simp only [bind, Except.bind, hbest?]
      rfl
  · refine Or.inr ⟨?_, hno⟩
    rw [select, hnone]
    rfl

/-- The version that is chosen is that of the best offer. -/
theorem exists_best {requested version : String} {releases : List String}
    (h : select requested releases = .ok version) :
    ∃ best, IsBest requested releases best ∧ version = best.run.version := by
  have hread : ∀ e, select requested releases ≠ .error (.numeral e) := by simp [h]
  rcases select_cases hread with ⟨best, hbest, hselect⟩ | ⟨hselect, -⟩
  · rw [h, Except.ok.injEq] at hselect
    exact ⟨best, hbest, hselect⟩
  · rw [h] at hselect
    cases hselect

/-- The version of an offer is ranked by the numbers of the offer. -/
theorem key?_version {o : Offer} {releases : List String} (h : o.isAmong releases) :
    key? o.run.version = .ok (some o.key) := by
  obtain ⟨⟨release, -, hrun⟩, hkey⟩ := h
  rw [key?, lastRun_version hrun]
  exact congrArg (Except.map some) hkey

/-- A request that names numbers does not ask for the best version of all. -/
theorem Names.asksLatest {requested : String} {wanted : List Nat} (h : Names requested wanted) :
    asksLatest requested = false := by
  obtain ⟨groups, hne, hcs, hdecimals⟩ := h
  refine asksLatest_eq_false ?_
  have hhead := head?_joined hne (areNumbers_of_decimals hdecimals) []
  rwa [List.append_nil, ← hcs] at hhead

theorem Names.unique {requested : String} {wanted wanted' : List Nat} (h : Names requested wanted)
    (h' : Names requested wanted') : wanted = wanted' := by
  have hkey := requestedKey?_eq_ok_some_iff.mpr h
  rw [requestedKey?_eq_ok_some_iff.mpr h'] at hkey
  cases hkey
  rfl

/--
The greatest of the releases that a request admits is chosen, by its numbers, then a plain one before one
with more behind its run, then the later one. What is given is the version that it carries, which has the
numbers that are named in front of its own. If there is no such release, that is reported, with the
request and all releases. This is so wherever no digits are found that cannot be read as a number.
-/
theorem select_greatest {requested : String} {releases : List String}
    (h : ∀ e, select requested releases ≠ .error (.numeral e)) :
    ((∃ o : Offer, o.isEligible requested releases) →
      ∃ best : Offer, best.isEligible requested releases ∧
        (∀ o : Offer, o.isEligible requested releases → o.rank ≤ best.rank) ∧
        ∃ release version, releases[best.place]? = some release ∧ version? release = some version ∧
          select requested releases = .ok version ∧ key? version = .ok (some best.key) ∧
          ∀ wanted, Names requested wanted → wanted <+: best.key) ∧
    ((∀ o : Offer, ¬ o.isEligible requested releases) →
      select requested releases = .error (.noMatch requested releases)) := by
  rcases select_cases h with ⟨best, hbest, hselect⟩ | ⟨hselect, hno⟩
  · refine ⟨fun _ => ⟨best, hbest.eligible, hbest.greatest, ?_⟩,
      fun hno => absurd hbest.eligible (hno best)⟩
    obtain ⟨hamong, hadmits⟩ := hbest.eligible
    obtain ⟨⟨release, hrelease, hrun⟩, -⟩ := id hamong
    refine ⟨release, best.run.version, hrelease, by rw [version?, hrun]; rfl, hselect,
      key?_version hamong, fun wanted hnames => ?_⟩
    rcases hadmits with hlatest | ⟨wanted', hnames', hprefix⟩
    · rw [hnames.asksLatest] at hlatest
      cases hlatest
    · rwa [hnames.unique hnames']
  · exact ⟨fun ⟨o, ho⟩ => absurd ho (hno o), fun _ => hselect⟩

/-- Of a plain release, its twin with more behind the run and a later twin with a zero in front, the last. -/
theorem select_greatest_zeroInFront :
    (∀ e, select "2" ["v2.9", "2.10", "2.10-rc1", "core-02.10", "3.0"] ≠ .error (.numeral e)) ∧
      ∃ best : Offer, best.isEligible "2" ["v2.9", "2.10", "2.10-rc1", "core-02.10", "3.0"] ∧
        (∀ o : Offer, o.isEligible "2" ["v2.9", "2.10", "2.10-rc1", "core-02.10", "3.0"] →
          o.rank ≤ best.rank) ∧ best.key = [2, 10] ∧
        select "2" ["v2.9", "2.10", "2.10-rc1", "core-02.10", "3.0"] = .ok "02.10" := by
  have hselect : select "2" ["v2.9", "2.10", "2.10-rc1", "core-02.10", "3.0"] = .ok "02.10" := by
    decide +kernel
  have hread : ∀ e, select "2" ["v2.9", "2.10", "2.10-rc1", "core-02.10", "3.0"] ≠
      .error (.numeral e) := by
    rw [hselect]
    exact nofun
  have hnames : Names "2" [2] := requestedKey?_eq_ok_some_iff.mp (by decide +kernel)
  have hlastRun : lastRun "2.10" = some ⟨[['2'], ['1', '0']], "2.10".toList⟩ := by decide +kernel
  obtain ⟨best, heligible, hmax, release, version, -, -, hsame, hkey, -⟩ :=
    (select_greatest hread).1 ⟨⟨1, ⟨[['2'], ['1', '0']], "2.10".toList⟩, [2, 10]⟩,
      ⟨⟨"2.10", rfl, hlastRun⟩, by decide +kernel⟩, Or.inr ⟨[2], hnames, by decide⟩⟩
  rw [hselect, Except.ok.injEq] at hsame
  have hnumbers : key? "02.10" = .ok (some [2, 10]) := by decide +kernel
  rw [← hsame, hnumbers, Except.ok.injEq, Option.some.injEq] at hkey
  exact ⟨hread, best, heligible, hmax, hkey.symm, hselect⟩

/-! Choosing again. -/

/-- Whether a version is nothing but its run. -/
def isPlainVersion (version : String) : Prop :=
  ∃ run, lastRun version = some run ∧ version.toList = joined run.numbers

theorem isPlainVersion_iff {release : String} {run : Run} (h : lastRun release = some run) :
    isPlainVersion run.version ↔ Text.stripList run.tail = joined run.numbers := by
  rw [isPlainVersion, lastRun_version h]
  simp [Run.version]

theorem stripList_version (run : Run) :
    Text.stripList run.version.toList = Text.stripList run.tail := by
  rw [Run.version, String.toList_ofList, Text.stripList_stripList]

/-- A plain version asks for the numbers that it has. -/
theorem names_version {o : Offer} {releases : List String} (h : o.isAmong releases)
    (hplain : isPlainVersion o.run.version) : Names o.run.version o.key := by
  obtain ⟨⟨release, -, hrun⟩, hkey⟩ := h
  obtain ⟨front, back, -, -, hlast⟩ := lastRun_eq_some_iff.mp hrun
  have hne := List.ne_nil_of_length_pos (Nat.lt_of_lt_of_le Nat.zero_lt_two hlast.two)
  exact ⟨o.run.numbers, hne, (stripList_version o.run).trans ((isPlainVersion_iff hrun).mp hplain),
    mapM_eq_ok_iff.mp hkey⟩

/-- A version that asks for numbers is plain. -/
theorem isPlainVersion_of_names {release : String} {run : Run} (h : lastRun release = some run)
    {wanted : List Nat} (hnames : Names run.version wanted) : isPlainVersion run.version := by
  obtain ⟨groups, hgroups, hcs, hdecimals⟩ := hnames
  obtain ⟨front, back, -, htail, hlast⟩ := lastRun_eq_some_iff.mp (lastRun_version h)
  have hne := List.ne_nil_of_length_pos (Nat.lt_of_lt_of_le Nat.zero_lt_two hlast.two)
  rw [stripList_version] at hcs
  -- the groups are the numbers that are read from the front
  have hsame : groups = run.numbers := by
    rw [← numbersFrom_joined hne hlast.digits hlast.ends, ← htail, hcs]
    have hread := numbersFrom_joined hgroups (areNumbers_of_decimals hdecimals) (rfl : continues [] = false)
    rwa [List.append_nil, eq_comm] at hread
  rw [isPlainVersion_iff h, hcs, hsame]

/-- Where all numbers can be read, it is not for a number that nothing is chosen. -/
theorem select_ne_numeral {requested : String} {wanted : Option (List Nat)} {releases : List String}
    {all : List Candidate} (hall : candidates releases = .ok all)
    (hwanted : requestedKey? requested = .ok wanted) (e : NumeralError) :
    select requested releases ≠ .error (.numeral e) := by
  have heligible : eligible requested releases ≠ .error (.numeral e) := by
    rw [eligible, hall, hwanted]
    cases asksLatest requested <;> cases wanted <;> intro h <;> cases h
  rw [select]
  cases hcs : eligible requested releases with
  | error e' =>
    intro h
    cases h
    exact heligible hcs
  | ok cs =>
    intro h
    cases hbest : best? cs <;> simp only [bind, Except.bind, hbest] at h <;> cases h

/--
A version that was chosen is chosen again among the same releases when it is asked for itself, if it is
plain; else it is not: a version with more behind its run asks for no numbers.
-/
theorem select_again_iff {requested version : String} {releases : List String}
    (h : select requested releases = .ok version) :
    select version releases = .ok version ↔ isPlainVersion version := by
  obtain ⟨best, hbest, rfl⟩ := exists_best h
  obtain ⟨hamong, hadmits⟩ := hbest.eligible
  obtain ⟨⟨release, -, hrun⟩, -⟩ := id hamong
  have hhead : asksLatest best.run.version = false := by
    refine asksLatest_eq_false ?_
    rw [stripList_version]
    exact head_lastRunAfter (lastRun_version hrun)
  constructor
  · intro hagain
    obtain ⟨again, hagain, -⟩ := exists_best hagain
    obtain ⟨-, hlatest | ⟨wanted, hnames, -⟩⟩ := hagain.eligible
    · rw [hhead] at hlatest
      cases hlatest
    · exact isPlainVersion_of_names hrun hnames
  · intro hplain
    have hnames := names_version hamong hplain
    -- what the version admits was admitted before, so the best is the same
    have hwithin : ∀ o : Offer, o.isEligible best.run.version releases →
        o.isEligible requested releases := by
      rintro o ⟨ho, hlatest | ⟨wanted, hwanted, hprefix⟩⟩
      · rw [hhead] at hlatest
        cases hlatest
      · rw [hwanted.unique hnames] at hprefix
        exact ⟨ho, hadmits.imp id fun ⟨asked, hasked, hbegins⟩ => ⟨asked, hasked, hbegins.trans hprefix⟩⟩
    have hbest' : IsBest best.run.version releases best :=
      ⟨⟨hamong, Or.inr ⟨best.key, hnames, List.prefix_rfl⟩⟩,
        fun o ho => hbest.greatest o (hwithin o ho)⟩
    cases hall : candidates releases with
    | error e =>
      rw [select, eligible, hall] at h
      cases h
    | ok all =>
      rcases select_cases (select_ne_numeral hall (requestedKey?_eq_ok_some_iff.mpr hnames)) with
        ⟨again, hagain, hselect⟩ | ⟨-, hno⟩
      · rw [hselect, hagain.unique hbest']
      · exact absurd hbest'.eligible (hno best)

/-- The later one of two plain twins is chosen, and chosen again. -/
theorem select_again_zeroInFront :
    select "latest" ["1.0-rc1", "1.0", "v1.00", "0.9"] = .ok "1.00" ∧
      select "1.00" ["1.0-rc1", "1.0", "v1.00", "0.9"] = .ok "1.00" := by
  have hselect : select "latest" ["1.0-rc1", "1.0", "v1.00", "0.9"] = .ok "1.00" := by decide +kernel
  have hplain : isPlainVersion "1.00" :=
    ⟨⟨[['1'], ['0', '0']], "1.00".toList⟩, by decide +kernel, by decide +kernel⟩
  exact ⟨hselect, (select_again_iff hselect).mpr hplain⟩

end Manifest.Release
