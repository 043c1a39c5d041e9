import Manifest.Proofs.Merge.Addition

/-! The place where new entries come in. `IsPlace` says where it is in terms of the nodes that were there
before the call, and it is one index only. All that an addition brings in stands there in one block, also
when the anchor would pick one of the new entries: the anchor is looked for again while the cursor is not
set, but by then it finds the end of the block. -/

set_option autoImplicit false

namespace Manifest

/--
The index at which new entries come in: one past the first entry that the anchor picks, or, if there is no
anchor or no entry that it picks, one past the last node that is not blank, the front if all are blank.
-/
inductive IsPlace (anchor : Option (Element → Bool)) (children : List Node) : Nat → Prop where
  | behindAnchor {a : Element → Bool} {i : Nat} {e : Element} (hanchor : anchor = some a)
      (hentry : children[i]? = some e.toNode) (hpicked : a e = true)
      (hfirst : ∀ j < i, ∀ x : Element, children[j]? = some x.toNode → a x = false) :
      IsPlace anchor children (i + 1)
  | behindLast {i : Nat} {node : Node} (hnone : ∀ a ∈ anchor, ∀ e ∈ elementsOf children, a e = false)
      (hnode : children[i]? = some node) (hstands : node.isBlank = false)
      (hlast : ∀ n ∈ children.drop (i + 1), n.isBlank = true) : IsPlace anchor children (i + 1)
  | front (hnone : ∀ a ∈ anchor, ∀ e ∈ elementsOf children, a e = false)
      (hblank : ∀ n ∈ children, n.isBlank = true) : IsPlace anchor children 0

section
variable {anchor : Option (Element → Bool)} {children : List Node}

theorem mem_elementsOf_iff {nodes : List Node} {e : Element} :
    e ∈ elementsOf nodes ↔ e.toNode ∈ nodes := by
  rw [elementsOf, List.mem_filterMap]
  constructor
  · rintro ⟨node, hmem, he⟩
    rw [Element.toNode_of_element? he]
    exact hmem
  · exact fun h => ⟨e.toNode, h, e.element?_toNode⟩

theorem eq_append_of_getElem? {nodes : List Node} {i : Nat} {node : Node} (h : nodes[i]? = some node) :
    nodes = nodes.take i ++ node :: nodes.drop (i + 1) := by
  obtain ⟨hi, rfl⟩ := List.getElem?_eq_some_iff.mp h
  rw [← List.drop_eq_getElem_cons hi, List.take_append_drop]

/-- An addition reckons with the one place that there is. -/
theorem IsPlace.eq_additionIndex {p : Nat} (h : IsPlace anchor children p) :
    p = additionIndex anchor children := by
  cases h with
  | @behindAnchor a i e hanchor hentry hpicked hfirst =>
    have hbefore : ∀ x ∈ elementsOf (children.take i), a x = false := by
      intro x hx
      obtain ⟨j, hj, hxj⟩ := List.mem_take_iff_getElem.mp (mem_elementsOf_iff.mp hx)
      exact hfirst j (by omega) x (List.getElem?_eq_some_iff.mpr ⟨by omega, hxj⟩)
    have hi : i < children.length := (List.getElem?_eq_some_iff.mp hentry).1
    have hafter := afterAnchor?_append e (children.drop (i + 1)) hbefore hpicked
    rw [← eq_append_of_getElem? hentry, List.length_take, Nat.min_eq_left (Nat.le_of_lt hi)] at hafter
    rw [additionIndex, hanchor, Option.bind_some, hafter, Option.getD_some]
  | @behindLast i node hnone hnode hstands hlast =>
    have hi : i < children.length := (List.getElem?_eq_some_iff.mp hnode).1
    have hend := endPosition_of_blank_tail (children.take i) hstands hlast
    rw [← eq_append_of_getElem? hnode, List.length_take, Nat.min_eq_left (Nat.le_of_lt hi)] at hend
    rw [additionIndex_of_anchorless fun a ha => afterAnchor?_eq_none_iff.mpr (hnone a ha), hend]
  | front hnone hblank =>
    rw [additionIndex_of_anchorless fun a ha => afterAnchor?_eq_none_iff.mpr (hnone a ha),
      endPosition_of_blank hblank]

/-- There always is a place. -/
theorem isPlace_additionIndex (anchor : Option (Element → Bool)) (children : List Node) :
    IsPlace anchor children (additionIndex anchor children) := by
  by_cases hpick : ∃ a ∈ anchor, ∃ e ∈ elementsOf children, a e = true
  · obtain ⟨a, ha, e, he, hp⟩ := hpick
    cases hafter : afterAnchor? a children with
    | none =>
      rw [afterAnchor?_eq_none_iff.mp hafter e he] at hp
      cases hp
    | some index =>
      obtain ⟨before, x, after, hchildren, hindex, hx, hno⟩ := afterAnchor?_eq_some hafter
      rw [additionIndex, Option.mem_def.mp ha, Option.bind_some, hafter, Option.getD_some, hindex]
      refine .behindAnchor (Option.mem_def.mp rfl) (by rw [hchildren]; simp) hx ?_
      intro j hj y hy
      rw [hchildren, List.getElem?_append_left hj] at hy
      exact hno y (mem_elementsOf_iff.mpr (List.mem_of_getElem? hy))
  · have hnone : ∀ a ∈ anchor, ∀ e ∈ elementsOf children, a e = false := by
      intro a ha e he
      rw [← Bool.not_eq_true]
      exact fun hp => hpick ⟨a, ha, e, he, hp⟩
    rw [additionIndex_of_anchorless fun a ha => afterAnchor?_eq_none_iff.mpr (hnone a ha)]
    obtain ⟨front, tail, hchildren, hend, htail, hlast⟩ := exists_eq_append_endPosition children
    rw [hend]
    rcases List.eq_nil_or_concat front with rfl | ⟨front, last, rfl⟩
    · exact .front hnone (by rw [hchildren]; exact htail)
    · rw [List.concat_eq_append] at hchildren hlast
      rw [List.length_concat]
      have hlength : (front ++ [last]).length = front.length + 1 := List.length_append
      refine .behindLast hnone (by rw [hchildren]; simp) (hlast last (by simp)) ?_
      rw [hchildren, List.drop_left' hlength]
      exact htail

theorem isPlace_iff {p : Nat} : IsPlace anchor children p ↔ p = additionIndex anchor children :=
  ⟨IsPlace.eq_additionIndex, fun h => h ▸ isPlace_additionIndex anchor children⟩

end

/-- The entry that is put behind an anchor is a block of its own. -/
theorem insertAfter_eq (anchor : Element → Bool) (owner : String) (entry : Element)
    (children : List Node) :
    (insertAfter anchor owner entry children).entries = [entry] ∧
      (insertAfter anchor owner entry children).children =
        withBlock children (additionIndex (some anchor) children) [entry.toNode] :=
  ⟨rfl, rfl⟩

/--
New entries stand in one block at one place, which the nodes that were there before determine: those
before it and those behind it are unchanged. The entries that an addition brings in are candidates, in
their order; an insertion brings in the one that it is given.
-/
theorem newEntries_oneBlock (same : Match) (anchor : Option (Element → Bool)) (picks : Element → Bool)
    (owner : String) (candidates : List Element) (entry : Element) (children : List Node) :
    (∃ p, (∀ q, IsPlace anchor children q ↔ q = p) ∧
      (addMissing same anchor owner candidates children).children =
        children.take p ++
          ((addMissing same anchor owner candidates children).entries.map Element.toNode ++
            children.drop p) ∧
      (addMissing same anchor owner candidates children).entries.Sublist candidates) ∧
    ∃ p, (∀ q, IsPlace (some picks) children q ↔ q = p) ∧
      (insertAfter picks owner entry children).children =
        children.take p ++ ([entry.toNode] ++ children.drop p) ∧
      (insertAfter picks owner entry children).entries = [entry] := by
  obtain ⟨hentries, hchildren⟩ := addMissing_eq same anchor owner candidates children
  obtain ⟨hentry, hinserted⟩ := insertAfter_eq picks owner entry children
  refine ⟨⟨additionIndex anchor children, fun q => isPlace_iff, ?_, ?_⟩,
    additionIndex (some picks) children, fun q => isPlace_iff, hinserted, hentry⟩
  · rw [hentries]
    exact hchildren
  · rw [hentries]
    exact newcomers_sublist _ _

end Manifest
