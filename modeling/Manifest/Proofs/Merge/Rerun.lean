import Manifest.Entry
import Manifest.Proofs.Identity
import Manifest.Proofs.Merge.Addition

/-! A refresh done twice. The first run leaves what it keeps and a block of new entries in it. The
second one removes those of the block that are unwanted themselves, keeps the others, and puts the
same entries back, in one block again, but where the anchor says now. So it undoes its own removal
exactly when these entries stood together at that place. -/

set_option autoImplicit false

namespace Manifest

/-! Removing from a block. -/

/-- Nodes without an unwanted entry stay as they are. -/
theorem children_removeFrom_append (unwanted : Element → Bool) (owner : String)
    (before rest : List Node) {front : List Node} (h : ∀ e ∈ elementsOf front, unwanted e = false) :
    (removeFrom unwanted owner before (front ++ rest)).children =
      (removeFrom unwanted owner (front.reverse ++ before) rest).children := by
  induction front generalizing before with
  | nil => rfl
  | cons node front ih =>
    have hnode : node.element?.filter unwanted = none := by
      cases he : node.element? with
      | none => rfl
      | some e =>
        have hu : unwanted e = false := h e (by simp [elementsOf, he])
        simp [Option.filter, hu]
    have hfront : ∀ e ∈ elementsOf front, unwanted e = false := by
      intro e he
      apply h
      rw [← List.singleton_append, elementsOf_append]
      exact List.mem_append_right _ he
    rw [List.cons_append, removeFrom, hnode]
    dsimp only
    rw [ih _ hfront, List.reverse_cons, List.append_assoc, List.singleton_append]

/-- Entries that follow each other take no white space with them when they are removed. -/
theorem children_removeFrom_block (unwanted : Element → Bool) (owner : String) {before : List Node}
    (hbefore : ∀ n ∈ before.head?, n.isBlank = false) (block : List Element) (rest : List Node) :
    (removeFrom unwanted owner before (block.map Element.toNode ++ rest)).children =
      (removeFrom unwanted owner
        (((block.filter (!unwanted ·)).map Element.toNode).reverse ++ before) rest).children := by
  induction block generalizing before with
  | nil => rfl
  | cons e block ih =>
    rw [List.map_cons, List.cons_append, removeFrom, Element.element?_toNode]
    cases hu : unwanted e with
    | false =>
      simp only [Option.filter, hu, Bool.false_eq_true, if_false]
      rw [ih (by simp), List.filter_cons_of_pos (by simp [hu])]
      simp
    | true =>
      have hdrop : dropBlank before = before := by
        cases before with
        | nil => rfl
        | cons n before => simp [dropBlank, hbefore n rfl]
      simp only [Option.filter, hu, if_true]
      rw [hdrop, ih hbefore, List.filter_cons_of_neg (by simp [hu])]

theorem getLast?_take_endPosition (nodes : List Node) :
    ∀ n ∈ (nodes.take (endPosition nodes)).getLast?, n.isBlank = false := by
  obtain ⟨front, tail, hnodes, hend, -, hlast⟩ := exists_eq_append_endPosition nodes
  rw [hend, hnodes, List.take_left]
  exact hlast

/-- New entries come behind a node that is not blank, or first. -/
theorem getLast?_take_additionIndex (anchor : Option (Element → Bool)) (nodes : List Node) :
    ∀ n ∈ (nodes.take (additionIndex anchor nodes)).getLast?, n.isBlank = false := by
  rw [additionIndex]
  cases h : anchor.bind (afterAnchor? · nodes) with
  | none => exact getLast?_take_endPosition nodes
  | some index =>
    obtain ⟨a, -, ha⟩ := Option.bind_eq_some_iff.mp h
    obtain ⟨before, e, after, hnodes, hi, -⟩ := afterAnchor?_eq_some ha
    have htake : nodes.take index = before ++ [e.toNode] := by
      rw [hnodes, hi, List.take_append, List.take_of_length_le (by omega)]
      simp
    rw [Option.getD_some, htake, List.getLast?_concat]
    rintro n ⟨⟩
    rfl

/-- Removing from a block that was added removes nothing but entries of it. -/
theorem children_removeFrom_withBlock {unwanted : Element → Bool} (owner : String)
    {kept : List Node} (hkept : ∀ e ∈ elementsOf kept, unwanted e = false)
    (anchor : Option (Element → Bool)) (block : List Element) :
    (removeFrom unwanted owner []
        (withBlock kept (additionIndex anchor kept) (block.map Element.toNode))).children =
      withBlock kept (additionIndex anchor kept)
        ((block.filter (!unwanted ·)).map Element.toNode) := by
  have hfront : ∀ e ∈ elementsOf (kept.take (additionIndex anchor kept)), unwanted e = false := by
    intro e he
    apply hkept
    rw [← elementsOf_take_drop kept (additionIndex anchor kept)]
    exact List.mem_append_left _ he
  have hback : ∀ e ∈ elementsOf (kept.drop (additionIndex anchor kept)), unwanted e = false := by
    intro e he
    apply hkept
    rw [← elementsOf_take_drop kept (additionIndex anchor kept)]
    exact List.mem_append_right _ he
  have hlast : ∀ n ∈ ((kept.take (additionIndex anchor kept)).reverse ++ []).head?,
      n.isBlank = false := by
    rw [List.append_nil, List.head?_reverse]
    exact getLast?_take_additionIndex anchor kept
  rw [withBlock, children_removeFrom_append unwanted owner [] _ hfront,
    children_removeFrom_block unwanted owner hlast,
    ← List.append_nil (kept.drop (additionIndex anchor kept)),
    children_removeFrom_append unwanted owner _ [] hback, removeFrom, withBlock]
  simp

/-! Adding the same candidates again. -/

/--
Candidates added once, then those of them removed that are unwanted, then added again: what was
removed is added, in the same order, and nothing else.
-/
theorem newcomers_again {same : Match} (hcomm : ∀ a b, same a b = same b a) {unwanted : Element → Bool}
    {present staying cs : List Element} (hself : ∀ c ∈ cs, same c c = true)
    (hpresent : ∀ e ∈ present, e ∈ staying)
    (hstaying : ∀ e ∈ staying, e ∈ present ∨ e ∈ newcomers same id present cs ∧ unwanted e = false)
    (hwanted : ∀ e ∈ newcomers same id present cs, unwanted e = false → e ∈ staying) :
    newcomers same id staying cs = (newcomers same id present cs).filter unwanted := by
  induction cs generalizing present staying with
  | nil => rfl
  | cons c cs ih =>
    have hself' : ∀ c ∈ cs, same c c = true := fun d hd => hself d (List.mem_cons_of_mem c hd)
    rw [newcomers_cons] at hstaying hwanted ⊢
    rw [newcomers_cons]
    simp only [id] at hstaying hwanted ⊢
    by_cases hc : present.any (same · c) = true
    · have hc' : staying.any (same · c) = true := by
        obtain ⟨e, he, hs⟩ := List.any_eq_true.mp hc
        exact List.any_eq_true.mpr ⟨e, hpresent e he, hs⟩
      rw [if_pos hc] at hstaying hwanted
      rw [if_pos hc, if_pos hc']
      exact ih hself' hpresent hstaying hwanted
    · rw [if_neg hc] at hstaying hwanted
      rw [if_neg hc]
      cases hu : unwanted c with
      | false =>
        -- the candidate is still there
        have hmem : c ∈ staying := hwanted c List.mem_cons_self hu
        have hc' : staying.any (same · c) = true :=
          List.any_eq_true.mpr ⟨c, hmem, hself c List.mem_cons_self⟩
        rw [if_pos hc', List.filter_cons_of_neg (by simp [hu])]
        apply ih hself'
        · intro e he
          rcases List.mem_append.mp he with he | he
          · exact hpresent e he
          · exact List.mem_singleton.mp he ▸ hmem
        · intro e he
          rcases hstaying e he with he | ⟨he, hue⟩
          · exact Or.inl (List.mem_append_left _ he)
          · rcases List.mem_cons.mp he with rfl | he
            · exact Or.inl (List.mem_append_right _ (List.mem_singleton_self _))
            · exact Or.inr ⟨he, hue⟩
        · exact fun e he => hwanted e (List.mem_cons_of_mem c he)
      | true =>
        -- no entry that stayed was added after it and is the same
        have hc' : ¬ staying.any (same · c) = true := by
          intro hany
          obtain ⟨e, he, hs⟩ := List.any_eq_true.mp hany
          rcases hstaying e he with he | ⟨he, hue⟩
          · exact hc (List.any_eq_true.mpr ⟨e, he, hs⟩)
          · rcases List.mem_cons.mp he with rfl | he
            · rw [hu] at hue
              cases hue
            · have hlater := not_same_of_mem_newcomers he
                (List.mem_append_right present (List.mem_singleton_self c))
              rw [id_eq] at hlater
              rw [hcomm, hlater] at hs
              cases hs
        rw [if_neg hc', List.filter_cons_of_pos hu]
        congr 1
        apply ih hself'
        · intro e he
          rcases List.mem_append.mp he with he | he
          · exact List.mem_append_left _ (hpresent e he)
          · exact List.mem_append_right _ he
        · intro e he
          rcases List.mem_append.mp he with he | he
          · rcases hstaying e he with he | ⟨he, hue⟩
            · exact Or.inl (List.mem_append_left _ he)
            · rcases List.mem_cons.mp he with rfl | he
              · rw [hu] at hue
                cases hue
              · exact Or.inr ⟨he, hue⟩
          · exact Or.inl (List.mem_append_right _ he)
        · exact fun e he hue => List.mem_append_left _ (hwanted e (List.mem_cons_of_mem c he) hue)

/-! The place of the second block. -/

/--
How many of the entries that stay come before those that are put back: none if the anchor picks an
entry that was there all along, else those up to the one that it picks among them, else all.
-/
def placeAmong (anchor : Option (Element → Bool)) (kept : List Node) (staying : List Element) : Nat :=
  match anchor with
  | none => staying.length
  | some a =>
    if (elementsOf kept).any a then 0
    else ((staying.findIdx? a).map (· + 1)).getD staying.length

theorem placeAmong_le (anchor : Option (Element → Bool)) (kept : List Node)
    (staying : List Element) : placeAmong anchor kept staying ≤ staying.length := by
  cases anchor with
  | none => exact Nat.le_refl _
  | some a =>
    rw [placeAmong]
    split
    · exact Nat.zero_le _
    · cases h : staying.findIdx? a with
      | none => exact Nat.le_refl _
      | some i => exact (List.findIdx?_eq_some_iff_findIdx_eq.mp h).1

/-- A block at the end ends the section. -/
theorem endPosition_withBlock_entries (nodes : List Node) (block : List Element) :
    endPosition (withBlock nodes (endPosition nodes) (block.map Element.toNode)) =
      endPosition nodes + block.length := by
  rcases List.eq_nil_or_concat block with rfl | ⟨front, last, rfl⟩
  · rw [List.map_nil, withBlock_nil]
    rfl
  · rw [List.concat_eq_append, List.map_append, List.map_singleton,
      endPosition_withBlock _ (isBlank_toNode last)]
    simp

/-- Where entries go in a section in which a block was added before. -/
theorem additionIndex_withBlock (anchor : Option (Element → Bool)) (kept : List Node)
    (staying : List Element) :
    additionIndex anchor (withBlock kept (additionIndex anchor kept) (staying.map Element.toNode)) =
      additionIndex anchor kept + placeAmong anchor kept staying := by
  cases anchor with
  | none => exact endPosition_withBlock_entries kept staying
  | some a =>
    rw [placeAmong]
    by_cases hany : (elementsOf kept).any a = true
    · rw [if_pos hany]
      cases ha : afterAnchor? a kept with
      | none =>
        obtain ⟨e, he, hp⟩ := List.any_eq_true.mp hany
        rw [afterAnchor?_eq_none_iff.mp ha e he] at hp
        cases hp
      | some index =>
        obtain ⟨before, e, after, hkept, rfl, hp, hno⟩ := afterAnchor?_eq_some ha
        have hindex : additionIndex (some a) kept = before.length + 1 := by
          rw [additionIndex, Option.bind_some, ha, Option.getD_some]
        have htake : kept.take (before.length + 1) = before ++ [e.toNode] := by
          rw [hkept, List.take_append, List.take_of_length_le (by omega)]
          simp
        rw [hindex, withBlock, htake, List.append_assoc, List.singleton_append, additionIndex,
          Option.bind_some, afterAnchor?_append e _ hno hp, Option.getD_some]
    · rw [if_neg hany]
      have hno : ∀ e ∈ elementsOf kept, a e = false := by simpa using hany
      have hnone : afterAnchor? a kept = none := afterAnchor?_eq_none_iff.mpr hno
      have hindex : additionIndex (some a) kept = endPosition kept := by
        rw [additionIndex, Option.bind_some, hnone, Option.getD_none]
      rw [hindex]
      cases hfind : staying.findIdx? a with
      | none =>
        have hstay : ∀ e ∈ staying, a e = false := List.findIdx?_eq_none_iff.mp hfind
        have hnone' : afterAnchor? a
            (withBlock kept (endPosition kept) (staying.map Element.toNode)) = none := by
          rw [afterAnchor?_eq_none_iff, elementsOf_withBlock]
          intro e he
          simp only [elementsOf_take_endPosition, elementsOf_drop_endPosition,
            elementsOf_map_toNode, List.append_nil, List.mem_append] at he
          exact he.elim (hno e) (hstay e)
        rw [additionIndex, Option.bind_some, hnone', Option.getD_none,
          endPosition_withBlock_entries]
        rfl
      | some i =>
        obtain ⟨hi, hp, hfirst⟩ := List.findIdx?_eq_some_iff_getElem.mp hfind
        have hsplit : withBlock kept (endPosition kept) (staying.map Element.toNode) =
            (kept.take (endPosition kept) ++ (staying.take i).map Element.toNode) ++
              staying[i].toNode ::
                ((staying.drop (i + 1)).map Element.toNode ++ kept.drop (endPosition kept)) := by
          have hstaying : staying = staying.take i ++ staying[i] :: staying.drop (i + 1) := by
            rw [← List.drop_eq_getElem_cons hi, List.take_append_drop]
          rw [withBlock, congrArg (List.map Element.toNode) hstaying]
          simp only [List.map_append, List.map_cons, List.append_assoc, List.cons_append]
        have hbefore : ∀ e ∈ elementsOf (kept.take (endPosition kept) ++
            (staying.take i).map Element.toNode), a e = false := by
          intro e he
          rw [elementsOf_append, elementsOf_take_endPosition, elementsOf_map_toNode,
            List.mem_append] at he
          rcases he with he | he
          · exact hno e he
          · obtain ⟨j, hj, rfl⟩ := List.mem_take_iff_getElem.mp he
            simpa using hfirst j (by omega)
        rw [hsplit, additionIndex, Option.bind_some, afterAnchor?_append _ _ hbefore hp]
        simp only [Option.map_some, Option.getD_some, List.length_append, List.length_take,
          List.length_map]
        have hle := endPosition_le kept
        omega

/-- A block inside a block. -/
theorem withBlock_withBlock {nodes : List Node} {index : Nat} (hindex : index ≤ nodes.length)
    {outer : List Node} {k : Nat} (hk : k ≤ outer.length) (inner : List Node) :
    withBlock (withBlock nodes index outer) (index + k) inner =
      withBlock nodes index (outer.take k ++ (inner ++ outer.drop k)) := by
  have hsplit : withBlock nodes index outer =
      (nodes.take index ++ outer.take k) ++ (outer.drop k ++ nodes.drop index) := by
    rw [withBlock, List.append_assoc, ← List.append_assoc (outer.take k), List.take_append_drop]
  have hlength : index + k = (nodes.take index ++ outer.take k).length := by
    rw [List.length_append, List.length_take, List.length_take, Nat.min_eq_left hindex,
      Nat.min_eq_left hk]
  rw [withBlock, hsplit, hlength, List.take_left, List.drop_left]
  simp only [withBlock, List.append_assoc]

/-! Refreshing twice. -/

namespace Renewal

/-- The nodes that the first removal leaves. -/
def kept (r : Renewal) (children : List Node) : List Node :=
  (removeFrom r.unwanted "" [] children).children

/-- The candidates that are added to them, in one block. -/
def block (r : Renewal) (children : List Node) : List Element :=
  newcomers r.same id (elementsOf (r.kept children)) r.candidates

/--
The block after another refresh: those of its entries that are unwanted have moved, all of them
together, to the place among the others where additions go.
-/
def regrouped (r : Renewal) (children : List Node) : List Element :=
  let staying := (r.block children).filter (!r.unwanted ·)
  let k := placeAmong r.anchor (r.kept children) staying
  staying.take k ++ ((r.block children).filter r.unwanted ++ staying.drop k)

end Renewal

theorem not_unwanted_of_mem_kept {r : Renewal} {children : List Node} {e : Element}
    (h : e ∈ elementsOf (r.kept children)) : r.unwanted e = false := by
  rw [Renewal.kept, elementsOf_removeFrom, List.mem_filter] at h
  simpa using h.2

theorem children_refresh (r : Renewal) (owner : String) (children : List Node) :
    (refresh r owner children).children =
      withBlock (r.kept children) (additionIndex r.anchor (r.kept children))
        ((r.block children).map Element.toNode) := by
  rw [refresh]
  dsimp only
  rw [children_removeFrom_owner _ owner "", (addMissing_eq _ _ _ _ _).2]
  rfl

/-- What is left of a section. -/
theorem kept_sublist (r : Renewal) (children : List Node) : (r.kept children).Sublist children :=
  (removeFrom_spec r.unwanted "" [] children).1

/-- The entries that a refresh adds are candidates. -/
theorem block_sublist (r : Renewal) (children : List Node) :
    (r.block children).Sublist r.candidates :=
  newcomers_sublist _ _

theorem removed_refresh (r : Renewal) (owner : String) (children : List Node) :
    (refresh r owner children).removed = (elementsOf children).filter r.unwanted :=
  entries_removeFrom r.unwanted owner children

theorem added_refresh (r : Renewal) (owner : String) (children : List Node) :
    (refresh r owner children).added = r.block children := by
  rw [refresh, Renewal.block, Renewal.kept]
  dsimp only
  rw [(addMissing_eq _ _ _ _ _).1, children_removeFrom_owner _ owner ""]

/-- What the second removal leaves. -/
theorem kept_refresh (r : Renewal) (owner : String) (children : List Node) :
    r.kept (refresh r owner children).children =
      withBlock (r.kept children) (additionIndex r.anchor (r.kept children))
        (((r.block children).filter (!r.unwanted ·)).map Element.toNode) := by
  rw [children_refresh, Renewal.kept]
  exact children_removeFrom_withBlock "" (fun _ he => not_unwanted_of_mem_kept he) r.anchor _

/-- What the second addition brings back. -/
theorem block_refresh {r : Renewal} (hcomm : ∀ a b, r.same a b = r.same b a)
    (hself : ∀ c ∈ r.candidates, r.same c c = true) (owner : String) (children : List Node) :
    r.block (refresh r owner children).children = (r.block children).filter r.unwanted := by
  have hmem : ∀ e, e ∈ elementsOf (r.kept (refresh r owner children).children) ↔
      e ∈ elementsOf (r.kept children) ∨ e ∈ r.block children ∧ r.unwanted e = false := by
    intro e
    rw [kept_refresh, elementsOf_withBlock, elementsOf_map_toNode,
      ← elementsOf_take_drop (r.kept children) (additionIndex r.anchor (r.kept children))]
    simp only [List.mem_append, List.mem_filter, Bool.not_eq_true']
    grind
  rw [Renewal.block]
  exact newcomers_again hcomm hself (fun e he => (hmem e).mpr (Or.inl he))
    (fun e he => (hmem e).mp he) fun e he hue => (hmem e).mpr (Or.inr ⟨he, hue⟩)

/-- The second of two refreshes regroups the block that the first one added, and does nothing else. -/
theorem children_refresh_refresh {r : Renewal} (hcomm : ∀ a b, r.same a b = r.same b a)
    (hself : ∀ c ∈ r.candidates, r.same c c = true) (owner : String) (children : List Node) :
    (refresh r owner (refresh r owner children).children).children =
      withBlock (r.kept children) (additionIndex r.anchor (r.kept children))
        ((r.regrouped children).map Element.toNode) := by
  rw [children_refresh, block_refresh hcomm hself, kept_refresh, additionIndex_withBlock,
    withBlock_withBlock (additionIndex_le _ _) (by simpa using placeAmong_le _ _ _),
    Renewal.regrouped]
  simp only [List.map_append, List.map_take, List.map_drop]

theorem toNode_injective : Function.Injective Element.toNode := by
  intro a b h
  have := congrArg Node.element? h
  simpa using this

theorem withBlock_inj {nodes : List Node} {index : Nat} {a b : List Element} :
    withBlock nodes index (a.map Element.toNode) = withBlock nodes index (b.map Element.toNode) ↔
      a = b := by
  rw [withBlock, withBlock, List.append_cancel_left_eq, List.append_cancel_right_eq,
    List.map_inj_right toNode_injective]

/-- A second refresh changes nothing exactly when the first one's block is as it would regroup it. -/
theorem refresh_refresh_eq_iff {r : Renewal} (hcomm : ∀ a b, r.same a b = r.same b a)
    (hself : ∀ c ∈ r.candidates, r.same c c = true) (owner : String) (children : List Node) :
    (refresh r owner (refresh r owner children).children).children =
        (refresh r owner children).children ↔
      r.regrouped children = r.block children := by
  rw [children_refresh_refresh hcomm hself, children_refresh, withBlock_inj]

/-- A refresh with two dependencies, before which the one named `a` is removed but no other. -/
def clearing (first second : String) : Renewal where
  candidates := [.dependency "g" first, .dependency "g" second]
  same := Identity.dependency.same
  removal := some [(Identity.artifactIn ["a"]).same]

/-- What is put back goes to the end, where it was. -/
theorem refresh_refresh_clearing_second :
    (∀ a b, (clearing "b" "a").same a b = (clearing "b" "a").same b a) ∧
      (∀ c ∈ (clearing "b" "a").candidates, (clearing "b" "a").same c c = true) ∧
      (refresh (clearing "b" "a") "dependencies"
          (refresh (clearing "b" "a") "dependencies" []).children).children =
        (refresh (clearing "b" "a") "dependencies" []).children :=
  have hcomm := Identity.same_comm (show Identity.dependency ∈ Identity.comparing by decide)
  have hself : ∀ c ∈ (clearing "b" "a").candidates, (clearing "b" "a").same c c = true := by
    decide +kernel
  ⟨hcomm, hself, (refresh_refresh_eq_iff (r := clearing "b" "a") hcomm hself _ _).mpr rfl⟩

/-- What is put back goes to the end, although it was not there. -/
theorem refresh_refresh_clearing_first :
    (∀ a b, (clearing "a" "b").same a b = (clearing "a" "b").same b a) ∧
      (∀ c ∈ (clearing "a" "b").candidates, (clearing "a" "b").same c c = true) ∧
      (refresh (clearing "a" "b") "dependencies"
          (refresh (clearing "a" "b") "dependencies" []).children).children ≠
        (refresh (clearing "a" "b") "dependencies" []).children := by
  refine ⟨Identity.same_comm (show Identity.dependency ∈ Identity.comparing by decide),
    by decide +kernel, fun h => ?_⟩
  have hnames := congrArg (fun nodes => (elementsOf nodes).map (·.childText? "artifactId")) h
  revert hnames
  decide +kernel

/-- Where the removal goes by the same identity as the addition, the whole block is put back. -/
theorem regrouped_of_removal_none {r : Renewal} (h : r.removal = none)
    (hself : ∀ c ∈ r.candidates, r.same c c = true) (children : List Node) :
    r.regrouped children = r.block children := by
  have hall : ∀ c ∈ r.block children, r.unwanted c = true := by
    intro c hc
    have hmem : c ∈ r.candidates := (newcomers_sublist _ _).subset hc
    rw [Renewal.unwanted, h, isNamed]
    simp only [Option.getD_none, List.any_cons, List.any_nil, Bool.or_false, List.any_eq_true]
    exact ⟨c, List.mem_append_right _ hmem, hself c hmem⟩
  have hnone : (r.block children).filter (!r.unwanted ·) = [] := by
    rw [List.filter_eq_nil_iff]
    intro c hc
    simp [hall c hc]
  rw [Renewal.regrouped, hnone, List.filter_eq_self.mpr hall]
  simp

/-- A refresh without a removal of its own is done for good. -/
theorem refresh_refresh_of_removal_none {r : Renewal} (h : r.removal = none)
    (hcomm : ∀ a b, r.same a b = r.same b a) (hself : ∀ c ∈ r.candidates, r.same c c = true)
    (owner : String) (children : List Node) :
    (refresh r owner (refresh r owner children).children).children =
      (refresh r owner children).children := by
  rw [children_refresh_refresh hcomm hself, children_refresh, regrouped_of_removal_none h hself]

end Manifest
