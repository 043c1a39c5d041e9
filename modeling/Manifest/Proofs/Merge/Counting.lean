import Manifest.Proofs.Merge.Commuting

/-! Sections as collections of identities. Under an identity that goes by a key, a section has some entries
with each key and some that have no key. An addition gives a section the first candidate of each key that it
lacks; a refresh leaves it with the first candidate of each key that the candidates have. Entries without a key
are the same as nothing, so none is removed and each one that is given is added. -/

set_option autoImplicit false

namespace Manifest

/-- Whether an entry has a given key. -/
def Identity.bears (identity : Identity) (k : List String) (e : Element) : Bool :=
  identity.key? e == some k

/-- Whether an entry has no key. -/
def Identity.isKeyless (identity : Identity) (e : Element) : Bool :=
  (identity.key? e).isNone

/-- The entries of a section that have a given key. -/
def Identity.bearing (identity : Identity) (k : List String) (nodes : List Node) : List Element :=
  (elementsOf nodes).filter (identity.bears k)

/-- The entries of a section that have no key. -/
def Identity.keyless (identity : Identity) (nodes : List Node) : List Element :=
  (elementsOf nodes).filter identity.isKeyless

section
variable {identity : Identity}

theorem Identity.bears_iff {k : List String} {e : Element} :
    identity.bears k e = true ↔ identity.key? e = some k := by
  rw [bears, beq_iff_eq]

/-! Candidates. -/

/-- An entry that has a key is found among others exactly if one of them has that key. -/
theorem any_same_eq (h : identity ∈ Identity.keyed) {k : List String} {c : Element}
    (hc : identity.bears k c = true) (es : List Element) :
    es.any (identity.same · c) = es.any (identity.bears k) := by
  have hsame : ∀ e, identity.same e c = identity.bears k e := by
    intro e
    rw [Bool.eq_iff_iff, Identity.same_iff_key h, Identity.bears_iff, Identity.bears_iff.mp hc]
    constructor
    · rintro ⟨k', he, hk⟩
      rw [he, hk]
    · exact fun he => ⟨k, he, rfl⟩
  simp only [hsame]

theorem any_same_of_isKeyless (h : identity ∈ Identity.keyed) {c : Element}
    (hc : identity.isKeyless c = true) (es : List Element) : es.any (identity.same · c) = false := by
  rw [List.any_eq_false]
  intro e _ hsame
  obtain ⟨k, -, hk⟩ := (Identity.same_iff_key h).mp hsame
  rw [Identity.isKeyless, hk] at hc
  cases hc

/-- Of the candidates with one key, the first is added, unless the key is there already. -/
theorem filter_bears_newcomers (h : identity ∈ Identity.keyed) (k : List String)
    (present cs : List Element) :
    (newcomers identity.same id present cs).filter (identity.bears k) =
      if present.any (identity.bears k) then [] else (cs.find? (identity.bears k)).toList := by
  induction cs generalizing present with
  | nil => simp
  | cons c cs ih =>
    rw [newcomers_cons, id, List.find?_cons]
    cases hc : identity.bears k c with
    | true =>
      rw [any_same_eq h hc]
      split
      · next hany => rw [ih, if_pos hany]
      · rw [List.filter_cons_of_pos hc, ih, List.any_append, List.any_cons, hc]
        simp
    | false =>
      split
      · exact ih present
      · rw [List.filter_cons_of_neg (by simp [hc]), ih, List.any_append, List.any_cons, hc, List.any_nil,
          Bool.or_false, Bool.or_false]

/-- Candidates without a key are all added. -/
theorem filter_isKeyless_newcomers (h : identity ∈ Identity.keyed) (present cs : List Element) :
    (newcomers identity.same id present cs).filter identity.isKeyless = cs.filter identity.isKeyless := by
  induction cs generalizing present with
  | nil => rfl
  | cons c cs ih =>
    rw [newcomers_cons, id]
    cases hc : identity.isKeyless c with
    | true =>
      rw [any_same_of_isKeyless h hc, if_neg (by simp), List.filter_cons_of_pos hc,
        List.filter_cons_of_pos hc, ih]
    | false =>
      rw [List.filter_cons_of_neg (by simp [hc])]
      split
      · exact ih present
      · rw [List.filter_cons_of_neg (by simp [hc]), ih]

theorem newcomers_eq_nil {same : Match} {present cs : List Element}
    (h : ∀ c ∈ cs, present.any (same · c) = true) : newcomers same id present cs = [] := by
  induction cs with
  | nil => rfl
  | cons c cs ih =>
    rw [newcomers_cons, id, if_pos (h c List.mem_cons_self)]
    exact ih fun d hd => h d (List.mem_cons_of_mem c hd)

/-! A block of new entries. -/

/-- The entries with a property are those of the section and those of the block, in some order. -/
theorem filter_withBlock_perm (p : Element → Bool) (children : List Node) (index : Nat)
    (block : List Element) :
    ((elementsOf (withBlock children index (block.map Element.toNode))).filter p).Perm
      ((elementsOf children).filter p ++ block.filter p) := by
  rw [elementsOf_withBlock, elementsOf_map_toNode, ← elementsOf_take_drop children index]
  simp only [List.filter_append, List.append_assoc]
  exact List.perm_append_comm.append_left _

/-- If either the section or the block has none of some entries, those of the other stand in their order. -/
theorem filter_withBlock {p : Element → Bool} {children : List Node} {block : List Element}
    (h : (elementsOf children).filter p = [] ∨ block.filter p = []) (index : Nat) :
    (elementsOf (withBlock children index (block.map Element.toNode))).filter p =
      (elementsOf children).filter p ++ block.filter p := by
  rw [elementsOf_withBlock, elementsOf_map_toNode, ← elementsOf_take_drop children index] at *
  simp only [List.filter_append] at h ⊢
  rcases h with h | h
  · obtain ⟨hfront, hback⟩ := List.append_eq_nil_iff.mp h
    rw [hfront, hback]
    simp
  · rw [h]
    simp

theorem elementsOf_sublist_withBlock (children : List Node) (index : Nat) (block : List Node) :
    (elementsOf children).Sublist (elementsOf (withBlock children index block)) := by
  have hsub : (elementsOf (children.take index) ++ elementsOf (children.drop index)).Sublist
      (elementsOf (withBlock children index block)) := by
    rw [elementsOf_withBlock]
    exact List.Sublist.append_left (List.sublist_append_right _ _) _
  rwa [elementsOf_take_drop] at hsub

/-! Additions. -/

variable (anchor : Option (Element → Bool)) (owner : String) (candidates : List Element)
  (children : List Node)

/-- The entries with one key after an addition: those that were there, or else the first candidate. -/
theorem bearing_addMissing (h : identity ∈ Identity.keyed) (k : List String) :
    identity.bearing k (addMissing identity.same anchor owner candidates children).children =
      if (elementsOf children).any (identity.bears k) then identity.bearing k children
      else (candidates.find? (identity.bears k)).toList := by
  have hblock := filter_bears_newcomers h k (elementsOf children) candidates
  have hnone : (elementsOf children).filter (identity.bears k) = [] ∨
      (newcomers identity.same id (elementsOf children) candidates).filter (identity.bears k) = [] := by
    cases hany : (elementsOf children).any (identity.bears k) with
    | true => exact Or.inr (by rw [hblock, if_pos hany])
    | false => exact Or.inl (by simpa using hany)
  rw [(addMissing_eq _ _ _ _ _).2, Identity.bearing, filter_withBlock hnone, hblock, Identity.bearing]
  split
  · rw [List.append_nil]
  · next hany => rw [List.filter_eq_nil_iff.mpr (by simpa using hany), List.nil_append]

/-- Every candidate that has a key is the same as an entry of the section after an addition. -/
theorem any_same_addMissing (h : identity ∈ Identity.keyed) {c : Element} (hc : c ∈ candidates)
    (hkey : (identity.key? c).isSome = true) :
    (elementsOf (addMissing identity.same anchor owner candidates children).children).any
      (identity.same · c) = true := by
  obtain ⟨k, hk⟩ := Option.isSome_iff_exists.mp hkey
  have hself : identity.same c c = true := (Identity.same_iff_key h).mpr ⟨k, hk, hk⟩
  have hmem : ∀ e, e ∈ elementsOf children ∨
      e ∈ newcomers identity.same id (elementsOf children) candidates →
        e ∈ elementsOf (addMissing identity.same anchor owner candidates children).children := by
    intro e he
    rw [(addMissing_eq _ _ _ _ _).2]
    rcases he with he | he
    · exact (elementsOf_sublist_withBlock _ _ _).subset he
    · rw [elementsOf_withBlock, elementsOf_map_toNode]
      exact List.mem_append_right _ (List.mem_append_left _ he)
  rw [List.any_eq_true]
  rcases mem_newcomers_or hc with hnew | ⟨e, he, hs⟩
  · exact ⟨c, hmem c (Or.inr hnew), hself⟩
  · rw [List.map_id] at he
    exact ⟨e, hmem e he, hs⟩

/-! Refreshes. -/

theorem unwanted_of_bears (h : identity ∈ Identity.keyed) {r : Renewal} (hr : r.GoesBy identity)
    {k : List String} {e : Element} (he : identity.bears k e = true) :
    r.unwanted e = r.named.any (identity.bears k) := by
  have hcomm : ∀ c, identity.same e c = identity.bears k c := by
    intro c
    rw [Bool.eq_iff_iff, Identity.same_iff_key h, Identity.bears_iff, Identity.bears_iff.mp he]
    constructor
    · rintro ⟨k', hk, hc⟩
      rw [hc, hk]
    · exact fun hc => ⟨k, rfl, hc⟩
  rw [hr.unwanted_eq]
  simp only [hcomm]

theorem not_unwanted_of_isKeyless (h : identity ∈ Identity.keyed) {r : Renewal} (hr : r.GoesBy identity)
    {e : Element} (he : identity.isKeyless e = true) : r.unwanted e = false := by
  rw [hr.unwanted_eq, List.any_eq_false]
  intro c _ hsame
  obtain ⟨k, hk, -⟩ := (Identity.same_iff_key h).mp hsame
  rw [Identity.isKeyless, hk] at he
  cases he

/-- Of the entries with one key, all are kept or none. -/
theorem bearing_kept (h : identity ∈ Identity.keyed) {r : Renewal} (hr : r.GoesBy identity)
    (k : List String) :
    identity.bearing k (r.kept children) =
      if r.named.any (identity.bears k) then [] else identity.bearing k children := by
  rw [Identity.bearing, Renewal.kept, elementsOf_removeFrom, List.filter_filter, Identity.bearing]
  split
  · next hany =>
    rw [List.filter_eq_nil_iff]
    intro e _ hboth
    rw [Bool.and_eq_true] at hboth
    rw [unwanted_of_bears h hr hboth.1, hany] at hboth
    exact Bool.noConfusion hboth.2
  · next hany =>
    refine List.filter_congr fun e _ => ?_
    cases he : identity.bears k e with
    | true => rw [unwanted_of_bears h hr he, Bool.eq_false_iff.mpr hany]; rfl
    | false => rw [Bool.false_and]

/-- Entries without a key are kept. -/
theorem keyless_kept (h : identity ∈ Identity.keyed) {r : Renewal} (hr : r.GoesBy identity) :
    identity.keyless (r.kept children) = identity.keyless children := by
  rw [Identity.keyless, Renewal.kept, elementsOf_removeFrom, List.filter_filter, Identity.keyless]
  refine List.filter_congr fun e _ => ?_
  cases he : identity.isKeyless e with
  | true => rw [not_unwanted_of_isKeyless h hr he]; rfl
  | false => rw [Bool.false_and]

/--
The entries with one key after a refresh: the first candidate with it, or else those that were there, unless
a stale entry has the key.
-/
theorem bearing_refresh (h : identity ∈ Identity.keyed) {r : Renewal} (hr : r.GoesBy identity)
    (k : List String) :
    identity.bearing k (refresh r owner children).children =
      match r.candidates.find? (identity.bears k) with
      | some c => [c]
      | none => if r.stale.any (identity.bears k) then [] else identity.bearing k children := by
  have hblock : (r.block children).filter (identity.bears k) =
      (r.candidates.find? (identity.bears k)).toList := by
    rw [hr.block_eq, filter_bears_newcomers h]
    rfl
  have hkept := bearing_kept children h hr k
  rw [Renewal.named, List.any_append] at hkept
  rw [children_refresh, Identity.bearing]
  cases hfind : r.candidates.find? (identity.bears k) with
  | some c =>
    have hany : r.candidates.any (identity.bears k) = true :=
      List.any_eq_true.mpr ⟨c, List.mem_of_find?_eq_some hfind, List.find?_some hfind⟩
    rw [hany, Bool.or_true, if_pos rfl, Identity.bearing] at hkept
    rw [filter_withBlock (Or.inl hkept), hkept, hblock, hfind]
    rfl
  | none =>
    have hany : r.candidates.any (identity.bears k) = false := by
      rw [List.any_eq_false]
      exact List.find?_eq_none.mp hfind
    rw [hfind] at hblock
    rw [hany, Bool.or_false, Identity.bearing] at hkept
    rw [filter_withBlock (Or.inr hblock), hkept, hblock]
    simp

/-- Every entry without a key is kept, and each candidate without one is added. -/
theorem keyless_refresh (h : identity ∈ Identity.keyed) {r : Renewal} (hr : r.GoesBy identity) :
    (identity.keyless (refresh r owner children).children).Perm
        (identity.keyless children ++ r.candidates.filter identity.isKeyless) ∧
      (identity.keyless children).Sublist (identity.keyless (refresh r owner children).children) := by
  rw [children_refresh, ← keyless_kept children h hr]
  have hblock : (r.block children).filter identity.isKeyless = r.candidates.filter identity.isKeyless := by
    rw [hr.block_eq, filter_isKeyless_newcomers h]
  rw [← hblock]
  exact ⟨filter_withBlock_perm _ _ _ _, (elementsOf_sublist_withBlock _ _ _).filter _⟩

/--
What adding and refreshing make of the identities of a section, for every identity that goes by a key. After
an addition the entries with a key are those that had it, or else the first candidate with it; entries without
a key are there as before, and all candidates without one besides. If every candidate has a key, adding them
again does nothing. After a refresh without a removal of its own the entries with a key are the first candidate
with it, or else none if a stale entry has it, or else those that had it; the entries without a key are kept,
and each candidate without one is added once.
-/
theorem identities_exact (h : identity ∈ Identity.keyed) (stale : List Element) :
    let added := addMissing identity.same anchor owner candidates children
    let again := addMissing identity.same anchor owner candidates added.children
    let refreshed := refresh { candidates, same := identity.same, anchor, stale } owner children
    (∀ k, identity.bearing k added.children =
        if (identity.bearing k children).isEmpty then (candidates.find? (identity.bears k)).toList
        else identity.bearing k children) ∧
      (identity.keyless added.children).Perm
        (identity.keyless children ++ candidates.filter identity.isKeyless) ∧
      (identity.keyless children).Sublist (identity.keyless added.children) ∧
      added.entries.filter identity.isKeyless = candidates.filter identity.isKeyless ∧
      ((∀ c ∈ candidates, (identity.key? c).isSome = true) →
        again.entries = [] ∧ again.children = added.children) ∧
      (∀ k, identity.bearing k refreshed.children =
        match candidates.find? (identity.bears k) with
        | some c => [c]
        | none => if stale.any (identity.bears k) then [] else identity.bearing k children) ∧
      (identity.keyless refreshed.children).Perm
        (identity.keyless children ++ candidates.filter identity.isKeyless) ∧
      (identity.keyless children).Sublist (identity.keyless refreshed.children) ∧
      refreshed.added.filter identity.isKeyless = candidates.filter identity.isKeyless := by
  intro added again refreshed
  have hgoes : ({ candidates, same := identity.same, anchor, stale } : Renewal).GoesBy identity := ⟨rfl, rfl⟩
  obtain ⟨hentries, hchildren⟩ := addMissing_eq identity.same anchor owner candidates children
  refine ⟨fun k => ?_, ?_, ?_, ?_, fun hkeys => ?_, bearing_refresh owner children h hgoes,
    (keyless_refresh owner children h hgoes).1, (keyless_refresh owner children h hgoes).2, ?_⟩
  · have hany : (identity.bearing k children).isEmpty = !(elementsOf children).any (identity.bears k) := by
      rw [Bool.eq_iff_iff, List.isEmpty_iff, Identity.bearing, List.filter_eq_nil_iff]
      simp
    rw [bearing_addMissing anchor owner candidates children h k, hany]
    cases (elementsOf children).any (identity.bears k) <;> rfl
  · rw [← filter_isKeyless_newcomers h (elementsOf children) candidates]
    simp only [added, hchildren, Identity.keyless]
    exact filter_withBlock_perm _ _ _ _
  · simp only [added, hchildren, Identity.keyless]
    exact (elementsOf_sublist_withBlock _ _ _).filter _
  · rw [hentries, filter_isKeyless_newcomers h]
  · obtain ⟨hentries', hchildren'⟩ := addMissing_eq identity.same anchor owner candidates added.children
    have hnone : newcomers identity.same id (elementsOf added.children) candidates = [] :=
      newcomers_eq_nil fun c hc => any_same_addMissing anchor owner candidates children h hc (hkeys c hc)
    simp only [again, hentries', hchildren', hnone, List.map_nil, withBlock_nil, and_self]
  · simp only [refreshed, added_refresh, hgoes.block_eq, filter_isKeyless_newcomers h]

end

/-- Two versions of one dependency. -/
def versions : List Element :=
  [.dependency "g" "a" (some "1"), .dependency "g" "a" (some "2")]

/-- A section with older versions of it, with another dependency, and with an entry that has no key. -/
def outdated : List Node :=
  [(Element.dependency "g" "a" (some "0")).toNode, (Element.ofName "dependency").toNode,
    (Element.dependency "g" "b").toNode, (Element.dependency "g" "a").toNode]

/-- The first version replaces the older ones, the other dependency is stale, and nothing is added twice. -/
theorem identities_exact_versions :
    Identity.dependency ∈ Identity.keyed ∧
      (∀ c ∈ versions, (Identity.dependency.key? c).isSome = true) ∧
      (addMissing Identity.dependency.same none "dependencies" versions
        (addMissing Identity.dependency.same none "dependencies" versions outdated).children).entries = [] ∧
      Identity.dependency.bearing ["g", "a"]
          (refresh { candidates := versions, same := Identity.dependency.same,
                     stale := [.dependency "g" "b"] } "dependencies" outdated).children =
        [.dependency "g" "a" (some "1")] ∧
      Identity.dependency.bearing ["g", "b"]
          (refresh { candidates := versions, same := Identity.dependency.same,
                     stale := [.dependency "g" "b"] } "dependencies" outdated).children = [] := by
  have hmem : Identity.dependency ∈ Identity.keyed := by decide
  have hkeys : ∀ c ∈ versions, (Identity.dependency.key? c).isSome = true := by decide +kernel
  obtain ⟨-, -, -, -, hagain, hbearing, -⟩ :=
    identities_exact none "dependencies" versions outdated hmem [.dependency "g" "b"]
  exact ⟨hmem, hkeys, (hagain hkeys).1, (hbearing _).trans (by rfl), (hbearing _).trans (by rfl)⟩

end Manifest
