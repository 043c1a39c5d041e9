import Manifest.Proofs.Merge.Carrying
import Manifest.Shift

/-! Where the entries of a section come from. After a merge each entry either stood in the section
before, at the rank that the shift of the merge leads to its rank now, or it is new, and then no other
entry is the same. -/

set_option autoImplicit false

namespace Manifest

/--
How the entries of a section came about from earlier ones, given where each rank goes: each was there
before, or no other one is the same as it.
-/
def Descended (same : Match) (follow : Nat → Option Nat) (old new : List Element) : Prop :=
  ∀ k e, new[k]? = some e →
    (∃ k₀, old[k₀]? = some e ∧ follow k₀ = some k) ∨
      ∀ k' e', k' ≠ k → new[k']? = some e' → same e' e = false

section
variable {same : Match}

/-- Entries that were there before descend through two merges, new ones of the second are new. -/
theorem Descended.trans_of_kept {follow follow' : Nat → Option Nat} {old mid new : List Element}
    (hkept : ∀ k e, mid[k]? = some e → ∃ k₀, old[k₀]? = some e ∧ follow k₀ = some k)
    (h : Descended same follow' mid new) :
    Descended same (fun k => (follow k).bind follow') old new := by
  intro k e he
  rcases h k e he with ⟨k₁, h₁, hf₁⟩ | hnew
  · obtain ⟨k₀, h₀, hf₀⟩ := hkept k₁ e h₁
    exact Or.inl ⟨k₀, h₀, by simp only [hf₀, Option.bind_some, hf₁]⟩
  · exact Or.inr hnew

/-- Where a rank goes when a block of new entries comes in. -/
def rankPast (first count rank : Nat) : Nat :=
  if rank < first then rank else rank + count

theorem descended_insert (hsym : ∀ a b, same a b = same b a) {front block back : List Element}
    (hblock : ∀ y ∈ front ++ back, ∀ x ∈ block, same y x = false)
    (hpair : block.Pairwise fun a b => same a b = false) :
    Descended same (fun k => some (rankPast front.length block.length k)) (front ++ back)
      (front ++ (block ++ back)) := by
  intro k e he
  rw [List.getElem?_append] at he
  split at he
  · next hk =>
    refine Or.inl ⟨k, ?_, ?_⟩
    · rw [List.getElem?_append_left hk]
      exact he
    · simp only [rankPast, if_pos hk]
  · next hk =>
    rw [List.getElem?_append] at he
    split at he
    · next hk' =>
      -- a new entry: the others are old ones or stand before or after it in the block
      refine Or.inr ?_
      intro k' e' hne he'
      have hmem : e ∈ block := List.mem_of_getElem? he
      rw [List.getElem?_append] at he'
      split at he'
      · exact hblock e' (List.mem_append_left _ (List.mem_of_getElem? he')) e hmem
      · rw [List.getElem?_append] at he'
        split at he'
        · have hrel := List.pairwise_iff_getElem.mp hpair
          obtain ⟨hl, rfl⟩ := List.getElem?_eq_some_iff.mp he
          obtain ⟨hl', rfl⟩ := List.getElem?_eq_some_iff.mp he'
          rcases Nat.lt_or_ge (k' - front.length) (k - front.length) with hlt | hge
          · exact hrel _ _ hl' hl hlt
          · rw [hsym]
            exact hrel _ _ hl hl' (by omega)
        · exact hblock e' (List.mem_append_right _ (List.mem_of_getElem? he')) e hmem
    · next hk' =>
      refine Or.inl ⟨k - block.length, ?_, ?_⟩
      · rw [List.getElem?_append_right (by omega)]
        rw [← he]
        congr 1
        omega
      · have hge : ¬ k - block.length < front.length := by omega
        simp only [rankPast, if_neg hge]
        congr 1
        omega

end

/-! Removed ranks. -/

/-- The ranks of the elements of a list that satisfy a condition. -/
def ranksIn (p : Element → Bool) (es : List Element) : List Nat :=
  (es.zipIdx.filter fun (e, _) => p e).map (·.2)

theorem ranksIn_concat (p : Element → Bool) (es : List Element) (e : Element) :
    ranksIn p (es ++ [e]) = ranksIn p es ++ if p e then [es.length] else [] := by
  rw [ranksIn, List.zipIdx_append, List.filter_append, List.map_append, ranksIn]
  cases hp : p e <;> simp [hp]

theorem lt_of_mem_ranksIn {p : Element → Bool} {es : List Element} {rank : Nat}
    (h : rank ∈ ranksIn p es) : rank < es.length := by
  obtain ⟨⟨e, r⟩, hmem, rfl⟩ := List.mem_map.mp h
  have hz := List.mem_zipIdx (List.mem_filter.mp hmem).1
  omega

theorem length_ranksIn (p : Element → Bool) (es : List Element) :
    (ranksIn p es).length + (es.filter (!p ·)).length = es.length := by
  induction es using List.reverseRec with
  | nil => rfl
  | append_singleton es e ih =>
    rw [ranksIn_concat, List.filter_append]
    cases hp : p e <;> simp [hp] <;> omega

/-- What is left after a removal stood before it, at the rank that leads to its rank now. -/
theorem exists_rankWithout (p : Element → Bool) (es : List Element) {k : Nat} {e : Element}
    (h : (es.filter (!p ·))[k]? = some e) :
    ∃ k₀, es[k₀]? = some e ∧ rankWithout (ranksIn p es) k₀ = some k := by
  induction es using List.reverseRec generalizing k with
  | nil => simp at h
  | append_singleton es x ih =>
    rw [List.filter_append, List.getElem?_append] at h
    split at h
    · obtain ⟨k₀, h₀, hr⟩ := ih h
      have hk₀ : k₀ < es.length := (List.getElem?_eq_some_iff.mp h₀).1
      refine ⟨k₀, by rw [List.getElem?_append_left hk₀, h₀], ?_⟩
      rw [← hr, ranksIn_concat]
      cases hp : p x with
      | false => simp
      | true =>
        have hne : k₀ ≠ es.length := by omega
        simp only [if_true, rankWithout, List.contains_append, List.countP_append]
        simp [hne, Nat.le_of_lt hk₀]
    · next hk =>
      cases hp : p x with
      | true => simp [hp] at h
      | false =>
        simp only [List.filter_cons, hp, Bool.not_false, if_true, List.filter_nil] at h
        have hlt := (List.getElem?_eq_some_iff.mp h).1
        rw [List.length_singleton] at hlt
        have hzero : k - (es.filter (!p ·)).length = 0 := by omega
        rw [hzero] at h
        refine ⟨es.length, by simpa using h, ?_⟩
        have hcontains : (ranksIn p es).contains es.length = false := by
          rw [Bool.eq_false_iff]
          intro hc
          have hlt := lt_of_mem_ranksIn (List.contains_iff_mem.mp hc)
          omega
        have hcount : (ranksIn p es).countP (· < es.length) = (ranksIn p es).length := by
          rw [List.countP_eq_length]
          intro r hr
          simpa using lt_of_mem_ranksIn hr
        have hlen := length_ranksIn p es
        rw [ranksIn_concat, hp, if_neg (by simp), List.append_nil, rankWithout, hcontains,
          if_neg (by simp), hcount]
        congr 1
        omega

end Manifest
