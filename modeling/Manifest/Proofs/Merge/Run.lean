import Manifest.Proofs.Identity
import Manifest.Proofs.Merge.Origin
import Manifest.Proofs.Section.Position

/-! Any number of merges, one after another, on one section. Two entries that are the same in the end
were both there at the start and stayed where they were, unchanged, through all of it: what a merge
brings in is never the same as another entry of the section. -/

set_option autoImplicit false

namespace Manifest

/-- One merge of a section. What it adds, it adds unless an entry is the same. -/
inductive SectionCall where
  | add (candidates : List Element) (anchor : Option (Element → Bool))
  | remove (matches' : List Match) (candidates : List Element)
  /-- Takes entries over from the section of another document, if there is one. -/
  | carry (source : Option Element)
  /-- Takes entries over from a section of the same document, perhaps from this one. -/
  | carryWithin (source : Option Position)
  | refresh (candidates stale : List Element) (anchor : Option (Element → Bool))
      (removal : Option (List Match))

/-- The children of the element at a position, none if there is no such element. -/
def Document.childrenAt (d : Document) (place : Position) : List Node :=
  ((d.at? place).map (·.children)).getD []

/-- A merge of the section at a place: the document after it, and where the entries went. -/
def SectionCall.run (same : Match) (place : Position) (d : Document) :
    SectionCall → Except SectionError (Document × List Shift)
  | .add candidates anchor =>
    (d.addMissing (some place) same anchor candidates).map fun (after, change) =>
      (after, [additionShift place anchor (d.childrenAt place) change.entries.length])
  | .remove matches' candidates =>
    (d.removeMatching (some place) matches' candidates).map fun (after, _) =>
      (after, [.removed place (ranksOf (isNamed matches' candidates) (d.childrenAt place))])
  | .carry source =>
    (d.carry (some place) same source).map fun (after, change) =>
      (after, [.inserted place (elementsOf (d.childrenAt place)).length change.entries.length])
  | .carryWithin source =>
    (d.carryWithin (some place) same source).map fun (after, change) =>
      (after, [.inserted place (elementsOf (d.childrenAt place)).length change.entries.length])
  | .refresh candidates stale anchor removal =>
    let renewal : Renewal := { candidates, same, anchor, stale, removal }
    (d.refresh (some place) renewal).map fun (after, r) =>
      (after, renewal.shifts place (d.childrenAt place) r.added.length)

/-- The document after some merges of one section. -/
def runCalls (same : Match) (place : Position) (d : Document) :
    List SectionCall → Except SectionError Document
  | [] => .ok d
  | call :: calls =>
    match call.run same place d with
    | .error e => .error e
    | .ok (d', _) => runCalls same place d' calls

/--
An entry of a section that stays through some merges: it stands there before each of them and at the
end, and the shifts of the merges lead from its first rank to its last one.
-/
inductive Stays (same : Match) (place : Position) (e : Element) :
    Document → List SectionCall → Nat → Nat → Prop where
  | done {d : Document} {rank : Nat} :
      d.at? (place ++ [rank]) = some e → Stays same place e d [] rank rank
  | step {d d' : Document} {call : SectionCall} {calls : List SectionCall} {shifts : List Shift}
      {rank rank' last : Nat} :
      d.at? (place ++ [rank]) = some e → call.run same place d = .ok (d', shifts) →
      followAll shifts (place ++ [rank]) = some (place ++ [rank']) →
      Stays same place e d' calls rank' last → Stays same place e d (call :: calls) rank last

/-! Following a rank. -/

theorem wayFrom?_append (place rest : Position) : wayFrom? place (place ++ rest) = some rest := by
  induction place with
  | nil => rfl
  | cons rank place ih => simp [wayFrom?, ih]

theorem follow_inserted (place : Position) (first count rank : Nat) :
    (Shift.inserted place first count).follow (place ++ [rank]) =
      some (place ++ [rankPast first count rank]) := by
  simp [Shift.follow, wayFrom?_append, rankPast]

theorem follow_removed (place : Position) (ranks : List Nat) (rank : Nat) :
    (Shift.removed place ranks).follow (place ++ [rank]) =
      (rankWithout ranks rank).map fun r => place ++ [r] := by
  simp [Shift.follow, wayFrom?_append]

theorem followAll_inserted (place : Position) (first count rank : Nat) :
    followAll [.inserted place first count] (place ++ [rank]) =
      (some (rankPast first count rank)).map fun r => place ++ [r] := by
  simp [followAll, follow_inserted]

theorem followAll_removed (place : Position) (ranks : List Nat) (rank : Nat) :
    followAll [.removed place ranks] (place ++ [rank]) =
      (rankWithout ranks rank).map fun r => place ++ [r] := by
  simp [followAll, follow_removed]

theorem followAll_removed_inserted (place : Position) (ranks : List Nat) (first count rank : Nat) :
    followAll [.removed place ranks, .inserted place first count] (place ++ [rank]) =
      ((rankWithout ranks rank).bind fun r => some (rankPast first count r)).map
        fun r => place ++ [r] := by
  cases h : rankWithout ranks rank <;> simp [followAll, follow_removed, follow_inserted, h]

theorem at?_append (d : Document) (place : Position) (rank : Nat) :
    d.at? (place ++ [rank]) = (elementsOf (d.childrenAt place))[rank]? := by
  have happ : ∀ (place : Position) (e : Element),
      e.at? (place ++ [rank]) = (e.at? place).bind fun e => e.elements[rank]? := by
    intro place
    induction place with
    | nil =>
      intro e
      simp [Element.at?]
    | cons r place ih =>
      intro e
      simp only [List.cons_append, Element.at?]
      cases e.elements[r]? with
      | none => rfl
      | some child => simpa using ih child
  rw [Document.at?, Document.childrenAt, Document.at?]
  cases d.root? with
  | none => simp
  | some root =>
    rw [Option.bind_some, Option.bind_some, happ]
    cases root.at? place with
    | none => simp
    | some e => rfl

theorem childrenAt_of_at? {d : Document} {place : Position} {e : Element}
    (h : d.at? place = some e) : d.childrenAt place = e.children := by
  rw [Document.childrenAt, h]
  rfl

theorem childrenAt_setChildren {d : Document} {place : Position} {e : Element}
    (children : List Node) (h : d.at? place = some e) :
    (d.setChildren place children).childrenAt place = children :=
  childrenAt_of_at? (Document.at?_setChildren children h)

/-! What one merge does to the entries of the section. -/

section
variable {same : Match}

/-- Additions and removals as they are followed, in terms of the entries alone. -/
theorem descended_addMissing (hsym : ∀ a b, same a b = same b a)
    (anchor : Option (Element → Bool)) (owner : String) (candidates : List Element)
    (children : List Node) :
    Descended same
      (fun k => some (rankPast (additionRank anchor children)
        (addMissing same anchor owner candidates children).entries.length k))
      (elementsOf children)
      (elementsOf (addMissing same anchor owner candidates children).children) := by
  obtain ⟨hentries, hchildren⟩ := addMissing_eq same anchor owner candidates children
  have hsplit := elementsOf_take_drop children (additionIndex anchor children)
  rw [hentries, hchildren, elementsOf_withBlock, elementsOf_map_toNode]
  rw [← hsplit]
  apply descended_insert hsym
  · intro y hy x hx
    exact not_same_of_mem_newcomers hx hy
  · exact newcomers_pairwise _ _

theorem kept_removeFrom (unwanted : Element → Bool) (owner : String) (children : List Node)
    {k : Nat} {e : Element}
    (h : (elementsOf (removeFrom unwanted owner [] children).children)[k]? = some e) :
    ∃ k₀, (elementsOf children)[k₀]? = some e ∧
      rankWithout (ranksOf unwanted children) k₀ = some k := by
  rw [elementsOf_removeFrom] at h
  exact exists_rankWithout unwanted (elementsOf children) h

/-- What is behind all entries that were there, none the same as another, is new. -/
theorem descended_append (hsym : ∀ a b, same a b = same b a) {old new : List Element}
    (hnew : ∀ y ∈ old, ∀ x ∈ new, same y x = false)
    (hpair : new.Pairwise fun a b => same a b = false) :
    Descended same (fun k => some (rankPast old.length new.length k)) old (old ++ new) := by
  have h := @descended_insert same hsym old new [] (by simpa using hnew) hpair
  simpa using h

theorem descended_carry (hsym : ∀ a b, same a b = same b a) (owner : String)
    (source children : List Node) :
    Descended same
      (fun k => some (rankPast (elementsOf children).length
        (carry same owner source children).entries.length k))
      (elementsOf children) (elementsOf (carry same owner source children).children) := by
  rw [elementsOf_carry, (carry_eq same owner source children).1, map_snd_carriedOf]
  apply descended_append hsym
  · intro y hy x hx
    exact not_same_of_mem_newcomers hx hy
  · exact newcomers_pairwise _ _

/--
How carrying inside one document stands: behind the entries that the target had there are new ones,
none of which is the same as another.
-/
structure CarriedWithin (same : Match) (target : Position) (old : List Element)
    (s : Document × Change) : Prop where
  entries_at : ∃ owner, s.1.at? target = some owner ∧ owner.elements = old ++ s.2.entries
  absent : ∀ y ∈ old, ∀ x ∈ s.2.entries, same y x = false
  distinct : s.2.entries.Pairwise fun a b => same a b = false

theorem CarriedWithin.carryRank {target : Position} {old : List Element} {s : Document × Change}
    (h : CarriedWithin same target old s) (source : Position) (rank : Nat) :
    CarriedWithin same target old (Document.carryRankWithin same target source s rank) := by
  obtain ⟨owner, howner, hentries⟩ := h.entries_at
  rw [Document.carryRankWithin, howner]
  cases s.1.at? source with
  | none => exact h
  | some element =>
    simp only
    rw [Change.carryRank]
    cases splitAtRank rank element.children with
    | none => exact ⟨⟨_, Document.at?_setChildren _ howner, hentries⟩, h.absent, h.distinct⟩
    | some x =>
      simp only
      rw [Change.carry]
      split
      · exact ⟨⟨_, Document.at?_setChildren _ howner, hentries⟩, h.absent, h.distinct⟩
      · next hany =>
        have hno : ∀ y ∈ old ++ s.2.entries, same y x.2 = false := by
          rw [← hentries]
          simpa [Element.elements] using hany
        refine ⟨⟨_, Document.at?_setChildren _ howner, ?_⟩, ?_, ?_⟩
        · rw [Element.elements] at hentries ⊢
          simp [elementsOf_insertNodes, elementsOf_leadingComments, hentries]
        · intro y hy z hz
          rcases List.mem_append.mp hz with hz | hz
          · exact h.absent y hy z hz
          · rw [List.mem_singleton.mp hz]
            exact hno y (List.mem_append_left _ hy)
        · refine List.pairwise_append.mpr ⟨h.distinct, List.pairwise_singleton _ _, ?_⟩
          intro y hy z hz
          rw [List.mem_singleton.mp hz]
          exact hno y (List.mem_append_right _ hy)

theorem CarriedWithin.foldl {target : Position} {old : List Element} {s : Document × Change}
    (h : CarriedWithin same target old s) (source : Position) (ranks : List Nat) :
    CarriedWithin same target old (ranks.foldl (Document.carryRankWithin same target source) s) := by
  induction ranks generalizing s with
  | nil => exact h
  | cons rank ranks ih => exact ih (h.carryRank source rank)

/-- Entries nobody adds to or removes from descend from themselves. -/
theorem descended_refl (es : List Element) (first : Nat) :
    Descended same (fun k => some (rankPast first 0 k)) es es := by
  intro k e he
  exact Or.inl ⟨k, he, by simp [rankPast]⟩

/--
One merge succeeds where there is a section, which is still there afterwards; its entries are those
from before, at the ranks that the shifts lead to, and new ones, which are the same as no other.
-/
theorem SectionCall.run_descended (hsym : ∀ a b, same a b = same b a) {place : Position}
    {d : Document} (hplace : (d.at? place).isSome = true) (call : SectionCall) :
    ∃ d' shifts follow, call.run same place d = .ok (d', shifts) ∧ (d'.at? place).isSome = true ∧
      (∀ rank, followAll shifts (place ++ [rank]) = (follow rank).map fun r => place ++ [r]) ∧
      Descended same follow (elementsOf (d.childrenAt place)) (elementsOf (d'.childrenAt place)) := by
  obtain ⟨owner, howner⟩ := Option.isSome_iff_exists.mp hplace
  have hchildren : d.childrenAt place = owner.children := childrenAt_of_at? howner
  have hset : ∀ children, ((d.setChildren place children).at? place).isSome = true := by
    intro children
    rw [Document.at?_setChildren children howner]
    rfl
  cases call with
  | add candidates anchor =>
    simp only [run, Document.addMissing, Document.onSection_of_at? _ _ howner, Except.map]
    refine ⟨_, _, _, rfl, hset _, fun rank => followAll_inserted _ _ _ rank, ?_⟩
    rw [childrenAt_setChildren _ howner, hchildren]
    exact descended_addMissing hsym anchor owner.name candidates owner.children
  | remove matches' candidates =>
    simp only [run, Document.removeMatching, Document.onSection_of_at? _ _ howner, Except.map]
    refine ⟨_, _, _, rfl, hset _, fun rank => followAll_removed _ _ rank, ?_⟩
    rw [childrenAt_setChildren _ howner, hchildren]
    intro k e he
    exact Or.inl (kept_removeFrom _ _ _ he)
  | carry source =>
    simp only [run, Document.carry, Document.onSection_of_at? _ _ howner, Except.map]
    refine ⟨_, _, _, rfl, hset _, fun rank => followAll_inserted _ _ _ rank, ?_⟩
    rw [childrenAt_setChildren _ howner, hchildren]
    cases source with
    | none => exact descended_refl _ _
    | some source => exact descended_carry hsym owner.name source.children owner.children
  | carryWithin source =>
    simp only [run, Document.carryWithin, Option.bind_some, howner]
    have hnone : Descended same
        (fun k => some (rankPast (elementsOf (d.childrenAt place)).length 0 k))
        (elementsOf (d.childrenAt place)) (elementsOf (d.childrenAt place)) := descended_refl _ _
    cases source with
    | none => exact ⟨_, _, _, rfl, hplace, fun rank => followAll_inserted _ _ _ rank, hnone⟩
    | some position =>
      rw [Option.bind_some]
      cases d.at? position with
      | none => exact ⟨_, _, _, rfl, hplace, fun rank => followAll_inserted _ _ _ rank, hnone⟩
      | some element =>
        have hstart : CarriedWithin same place owner.elements
            (d, { children := owner.children }) :=
          ⟨⟨owner, howner, by simp⟩, by simp, List.Pairwise.nil⟩
        obtain ⟨⟨owner', howner', hentries⟩, habsent, hdistinct⟩ :=
          hstart.foldl position (List.range element.elements.length)
        refine ⟨_, _, _, rfl, by rw [howner']; rfl, fun rank => followAll_inserted _ _ _ rank, ?_⟩
        rw [childrenAt_of_at? howner', hchildren]
        rw [Element.elements] at hentries
        rw [hentries]
        exact descended_append hsym habsent hdistinct
  | refresh candidates stale anchor removal =>
    simp only [run, Document.refresh, Document.onSection_of_at? _ _ howner, Except.map]
    refine ⟨_, _, _, rfl, hset _, fun rank => followAll_removed_inserted _ _ _ _ rank, ?_⟩
    rw [childrenAt_setChildren _ howner, hchildren]
    have hleft := children_removeFrom_owner
      ({ candidates, same, anchor, stale, removal } : Renewal).unwanted "" owner.name []
      owner.children
    rw [hleft]
    exact Descended.trans_of_kept (fun k e he => kept_removeFrom _ owner.name _ he)
      (descended_addMissing hsym anchor owner.name candidates _)

end

/-! Any number of merges. -/

section
variable {same : Match} {place : Position}

/-- Where an entry ends up depends on where it was only. -/
theorem Stays.last_unique {d : Document} {calls : List SectionCall} {e f : Element}
    {rank last last' : Nat} (h : Stays same place e d calls rank last)
    (h' : Stays same place f d calls rank last') : last = last' := by
  induction h generalizing last' with
  | done => cases h'; rfl
  | step _ hrun hfollow _ ih =>
    cases h' with
    | step _ hrun' hfollow' hrest' =>
      rw [hrun] at hrun'
      cases hrun'
      rw [hfollow] at hfollow'
      have hrank := List.append_cancel_left (Option.some.inj hfollow')
      cases hrank
      exact ih hrest'

theorem Stays.at_first {d : Document} {calls : List SectionCall} {e : Element} {rank last : Nat}
    (h : Stays same place e d calls rank last) : d.at? (place ++ [rank]) = some e := by
  cases h <;> assumption

/-- An entry of a section that descends and is the same as another one was there before. -/
theorem Descended.exists_before {follow : Nat → Option Nat} {old new : List Element}
    (h : Descended same follow old new) {i j : Nat} {e f : Element} (hij : i ≠ j)
    (hi : new[i]? = some e) (hj : new[j]? = some f) (hfe : same f e = true) :
    ∃ i₀, old[i₀]? = some e ∧ follow i₀ = some i := by
  rcases h i e hi with hold | hnew
  · exact hold
  · have hno := hnew j f hij.symm hj
    rw [hfe] at hno
    cases hno

theorem runCalls_stays (hsym : ∀ a b, same a b = same b a) (calls : List SectionCall)
    {d : Document} (hplace : (d.at? place).isSome = true) :
    ∃ d', runCalls same place d calls = .ok d' ∧
      ∀ i j e f, i ≠ j → d'.at? (place ++ [i]) = some e → d'.at? (place ++ [j]) = some f →
        same e f = true →
          ∃ i₀ j₀, i₀ ≠ j₀ ∧ Stays same place e d calls i₀ i ∧ Stays same place f d calls j₀ j := by
  induction calls generalizing d with
  | nil => exact ⟨d, rfl, fun i j e f hij hi hj _ => ⟨i, j, hij, .done hi, .done hj⟩⟩
  | cons call calls ih =>
    obtain ⟨d₁, shifts, follow, hrun, hplace₁, hfollow, hdesc⟩ :=
      call.run_descended hsym hplace
    obtain ⟨d', hrest, hstays⟩ := ih hplace₁
    refine ⟨d', by rw [runCalls, hrun]; exact hrest, ?_⟩
    intro i j e f hij hi hj hef
    obtain ⟨i₁, j₁, hij₁, hsi, hsj⟩ := hstays i j e f hij hi hj hef
    have hi₁ := hsi.at_first
    have hj₁ := hsj.at_first
    rw [at?_append] at hi₁ hj₁
    obtain ⟨i₀, hi₀, hfi⟩ := hdesc.exists_before hij₁ hi₁ hj₁ (by rw [hsym, hef])
    obtain ⟨j₀, hj₀, hfj⟩ := hdesc.exists_before hij₁.symm hj₁ hi₁ hef
    refine ⟨i₀, j₀, ?_, .step ?_ hrun ?_ hsi, .step ?_ hrun ?_ hsj⟩
    · rintro rfl
      rw [hfi] at hfj
      exact hij₁ (Option.some.inj hfj)
    · rw [at?_append, hi₀]
    · rw [hfollow, hfi, Option.map_some]
    · rw [at?_append, hj₀]
    · rw [hfollow, hfj, Option.map_some]

/--
No run of merges brings in a duplicate. It succeeds on every section that is there, and two entries
that are the same under a symmetric match in the end stood in the section from the start, as two
entries, and were left unchanged by every merge. All matches that compare two entries are symmetric.
-/
theorem duplicates_stayed :
    (∀ identity ∈ Identity.comparing, ∀ a b, identity.same a b = identity.same b a) ∧
      ∀ (same : Match), (∀ a b, same a b = same b a) →
        ∀ (place : Position) (calls : List SectionCall) (d : Document),
          (d.at? place).isSome = true →
            ∃ d', runCalls same place d calls = .ok d' ∧
              ∀ i j e f, i ≠ j → d'.at? (place ++ [i]) = some e →
                d'.at? (place ++ [j]) = some f → same e f = true →
                  ∃ i₀ j₀, i₀ ≠ j₀ ∧ Stays same place e d calls i₀ i ∧
                    Stays same place f d calls j₀ j :=
  ⟨fun _ h => Identity.same_comm h, fun _ hsym _ calls _ hplace => runCalls_stays hsym calls hplace⟩

/-- A section with two entries that are the same, and another entry between them. -/
def twins : Document :=
  { nodes := [(Element.ofName "dependencies"
      [(Element.dependency "g" "a" (some "1")).toNode, .text " ",
        (Element.dependency "g" "b").toNode, (Element.dependency "g" "a" (some "2")).toNode]).toNode] }

/-- Merges that remove the entry between the two and bring in others. -/
def twinCalls : List SectionCall :=
  [.remove [Identity.dependency.same] [.dependency "g" "b"],
    .add [.dependency "g" "c", .dependency "g" "c"] none,
    .carry (some (.ofName "dependencies" [(Element.dependency "g" "a").toNode])),
    .refresh [.dependency "g" "d"] [.dependency "g" "c"] none none]

theorem duplicates_stayed_twins :
    (∀ a b, Identity.dependency.same a b = Identity.dependency.same b a) ∧
      (twins.at? []).isSome = true ∧
      ∃ i₀ j₀, i₀ ≠ j₀ ∧
        Stays Identity.dependency.same [] (.dependency "g" "a" (some "1")) twins twinCalls i₀ 0 ∧
        Stays Identity.dependency.same [] (.dependency "g" "a" (some "2")) twins twinCalls j₀ 1 := by
  have hsym := duplicates_stayed.1 .dependency (by simp [Identity.comparing])
  have hplace : (twins.at? []).isSome = true := rfl
  obtain ⟨d', hrun, hstays⟩ :=
    duplicates_stayed.2 Identity.dependency.same hsym [] twinCalls twins hplace
  cases hrun
  exact ⟨hsym, hplace, hstays 0 1 _ _ (by decide) rfl rfl (by decide)⟩

end

end Manifest
