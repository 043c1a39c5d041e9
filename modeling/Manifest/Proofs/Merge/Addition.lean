import Manifest.Proofs.Merge.Block

/-! What additions and removals leave. `newcomers` are the candidates that are added: those that
neither an entry of the section nor a candidate before them is the same as. `addMissing` puts them in
one block; `removeFrom` keeps the entries that are not unwanted. -/

set_option autoImplicit false

namespace Manifest

variable {α : Type}

/-- The candidates that no entry is the same as, neither one present nor an earlier candidate. -/
def newcomers (same : Match) (key : α → Element) : List Element → List α → List α
  | _, [] => []
  | present, c :: cs =>
    if present.any (same · (key c)) then newcomers same key present cs
    else c :: newcomers same key (present ++ [key c]) cs

section Newcomers
variable {same : Match} {key : α → Element}

@[simp] theorem newcomers_nil (present : List Element) : newcomers same key present [] = [] := rfl

theorem newcomers_cons (present : List Element) (c : α) (cs : List α) :
    newcomers same key present (c :: cs) =
      if present.any (same · (key c)) then newcomers same key present cs
      else c :: newcomers same key (present ++ [key c]) cs := rfl

/-- Only what the entries present are the same as counts for which candidates are new. -/
theorem newcomers_congr_any {present present' : List Element} {cs : List α}
    (h : ∀ c ∈ cs, present.any (same · (key c)) = present'.any (same · (key c))) :
    newcomers same key present cs = newcomers same key present' cs := by
  induction cs generalizing present present' with
  | nil => rfl
  | cons c cs ih =>
    have hrest := fun d hd => h d (List.mem_cons_of_mem c hd)
    have hmore : ∀ d ∈ cs, (present ++ [key c]).any (same · (key d)) =
        (present' ++ [key c]).any (same · (key d)) := by
      intro d hd
      rw [List.any_append, List.any_append, hrest d hd]
    rw [newcomers_cons, newcomers_cons, h c List.mem_cons_self, ih hrest, ih hmore]

theorem newcomers_map (present : List Element) (cs : List α) :
    (newcomers same key present cs).map key = newcomers same id present (cs.map key) := by
  induction cs generalizing present with
  | nil => rfl
  | cons c cs ih =>
    simp only [newcomers_cons, List.map_cons, id]
    split
    · exact ih present
    · rw [List.map_cons, ih]

theorem newcomers_sublist (present : List Element) (cs : List α) :
    (newcomers same key present cs).Sublist cs := by
  induction cs generalizing present with
  | nil => exact .slnil
  | cons c cs ih =>
    rw [newcomers_cons]
    split
    · exact (ih present).cons c
    · exact (ih _).cons_cons c

/-- A newcomer is none of those present. -/
theorem not_same_of_mem_newcomers {present : List Element} {cs : List α} {c : α}
    (hc : c ∈ newcomers same key present cs) {e : Element} (he : e ∈ present) :
    same e (key c) = false := by
  induction cs generalizing present with
  | nil => cases hc
  | cons d cs ih =>
    rw [newcomers_cons] at hc
    split at hc
    · exact ih hc he
    · next hd =>
      rcases List.mem_cons.mp hc with rfl | hc
      · simp only [List.any_eq_true, not_exists, not_and] at hd
        simpa using hd e he
      · exact ih hc (List.mem_append_left _ he)

/-- No newcomer is the same as an earlier one. -/
theorem newcomers_pairwise (present : List Element) (cs : List α) :
    (newcomers same key present cs).Pairwise fun a b => same (key a) (key b) = false := by
  induction cs generalizing present with
  | nil => exact .nil
  | cons c cs ih =>
    rw [newcomers_cons]
    split
    · exact ih present
    · refine List.pairwise_cons.mpr ⟨?_, ih _⟩
      intro d hd
      exact not_same_of_mem_newcomers hd (List.mem_append_right _ (List.mem_singleton_self _))

/-- A candidate that is not added has an entry that is the same, or was the same as a newcomer. -/
theorem mem_newcomers_or {present : List Element} {cs : List α} {c : α} (hc : c ∈ cs) :
    c ∈ newcomers same key present cs ∨
      ∃ e, (e ∈ present ∨ e ∈ (newcomers same key present cs).map key) ∧
        same e (key c) = true := by
  induction cs generalizing present with
  | nil => cases hc
  | cons d cs ih =>
    rw [newcomers_cons]
    split
    · next hd =>
      rcases List.mem_cons.mp hc with rfl | hc
      · obtain ⟨e, he, hs⟩ := List.any_eq_true.mp hd
        exact Or.inr ⟨e, Or.inl he, hs⟩
      · exact ih hc
    · rcases List.mem_cons.mp hc with rfl | hc
      · exact Or.inl List.mem_cons_self
      · rcases @ih (present ++ [key d]) hc with h | ⟨e, he, hs⟩
        · exact Or.inl (List.mem_cons_of_mem d h)
        · refine Or.inr ⟨e, ?_, hs⟩
          rcases he with he | he
          · rcases List.mem_append.mp he with he | he
            · exact Or.inl he
            · rw [List.mem_singleton.mp he]
              exact Or.inr (List.mem_map_of_mem List.mem_cons_self)
          · exact Or.inr (by simpa using Or.inr (List.mem_map.mp he))

theorem newcomers_ne_nil {present : List Element} {c : α} {cs : List α}
    (h : ∀ e ∈ present, same e (key c) = false) : newcomers same key present (c :: cs) ≠ [] := by
  rw [newcomers_cons, if_neg]
  · exact List.cons_ne_nil _ _
  · simpa using h

/-- Candidates none of which is the same as another or as one present are all added. -/
theorem newcomers_eq_self {present : List Element} {cs : List α}
    (hp : ∀ e ∈ present, ∀ c ∈ cs, same e (key c) = false)
    (hcs : cs.Pairwise fun a b => same (key a) (key b) = false) :
    newcomers same key present cs = cs := by
  induction cs generalizing present with
  | nil => rfl
  | cons c cs ih =>
    obtain ⟨hc, hcs⟩ := List.pairwise_cons.mp hcs
    rw [newcomers_cons, if_neg, ih _ hcs]
    · intro e he d hd
      rcases List.mem_append.mp he with he | he
      · exact hp e he d (List.mem_cons_of_mem c hd)
      · rw [List.mem_singleton.mp he]
        exact hc d hd
    · simpa using fun e he => hp e he c List.mem_cons_self

end Newcomers

/-! Additions. -/

/-- Nodes with new entries in one block at an index. -/
def withBlock (children : List Node) (index : Nat) (block : List Node) : List Node :=
  children.take index ++ (block ++ children.drop index)

theorem withBlock_nil (children : List Node) (index : Nat) : withBlock children index [] = children := by
  rw [withBlock, List.nil_append, List.take_append_drop]

/-- Nodes put behind a block make the block longer. -/
theorem insertNodes_withBlock {children : List Node} {index : Nat} (h : index ≤ children.length)
    (block new : List Node) :
    insertNodes new (index + block.length) (withBlock children index block) =
      withBlock children index (block ++ new) := by
  have hl : index + block.length = (children.take index ++ block).length := by
    rw [List.length_append, List.length_take, Nat.min_eq_left h]
  have hw : withBlock children index block =
      (children.take index ++ block) ++ children.drop index := by
    rw [withBlock, List.append_assoc]
  rw [insertNodes, hw, hl, List.take_left, List.drop_left, withBlock]
  simp only [List.append_assoc]

theorem elementsOf_withBlock (children : List Node) (index : Nat) (block : List Node) :
    elementsOf (withBlock children index block) =
      elementsOf (children.take index) ++ (elementsOf block ++ elementsOf (children.drop index)) := by
  rw [withBlock, elementsOf_append, elementsOf_append]

/-- The entries of a block at the end come behind all others. -/
@[simp] theorem elementsOf_withBlock_endPosition (children block : List Node) :
    elementsOf (withBlock children (endPosition children) block) = elementsOf children ++ elementsOf block := by
  rw [elementsOf_withBlock, elementsOf_take_endPosition, elementsOf_drop_endPosition, List.append_nil]

/--
How an addition stands after some candidates: the new entries are one block, and the cursor, if it
is set, is right behind it. While it is not set, there is no anchor among the entries that were there,
and none among the new ones but perhaps the last.
-/
structure Placed (anchor : Option (Element → Bool)) (children : List Node) (s : Addition) : Prop where
  children_eq : s.children =
    withBlock children (additionIndex anchor children) (s.entries.map Element.toNode)
  cursor_eq : ∀ i ∈ s.cursor, i = additionIndex anchor children + s.entries.length
  anchorless : s.cursor = none → s.entries ≠ [] → ∀ a ∈ anchor,
    afterAnchor? a children = none ∧ ∀ e ∈ s.entries.dropLast, a e = false

theorem additionIndex_of_anchorless {anchor : Option (Element → Bool)} {children : List Node}
    (h : ∀ a ∈ anchor, afterAnchor? a children = none) :
    additionIndex anchor children = endPosition children := by
  cases anchor with
  | none => rfl
  | some a => rw [additionIndex, Option.bind_some, h a rfl, Option.getD_none]

/-- A block at the end of a section ends it. -/
theorem endPosition_withBlock {children : List Node} (front : List Node) {last : Node}
    (hlast : last.isBlank = false) :
    endPosition (withBlock children (endPosition children) (front ++ [last])) =
      endPosition children + (front ++ [last]).length := by
  have hw : withBlock children (endPosition children) (front ++ [last]) =
      (children.take (endPosition children) ++ front) ++
        last :: children.drop (endPosition children) := by
    simp [withBlock]
  rw [hw, endPosition_of_blank_tail _ hlast fun t ht => isBlank_of_mem_drop_endPosition ht]
  rw [List.length_append, List.length_take, Nat.min_eq_left (endPosition_le children),
    List.length_append, List.length_singleton, Nat.add_assoc]

/-- The place of the next entry is right behind the block, whichever way it is found. -/
theorem Placed.place_eq {anchor : Option (Element → Bool)} {children : List Node} {s : Addition}
    (h : Placed anchor children s) :
    (s.cursor.or (anchor.bind (afterAnchor? · s.children))).getD (endPosition s.children) =
      additionIndex anchor children + s.entries.length := by
  cases hc : s.cursor with
  | some i => exact h.cursor_eq i hc
  | none =>
    rw [Option.none_or]
    rcases List.eq_nil_or_concat s.entries with hnil | ⟨front, last, hlast⟩
    · rw [h.children_eq, hnil, List.map_nil, withBlock_nil]
      rfl
    · rw [List.concat_eq_append] at hlast
      have hne : s.entries ≠ [] := by simp [hlast]
      have hless := h.anchorless hc hne
      have hindex : additionIndex anchor children = endPosition children :=
        additionIndex_of_anchorless fun a ha => (hless a ha).1
      have hchildren := h.children_eq
      rw [hindex, hlast, List.map_append, List.map_singleton] at hchildren
      have hend : endPosition s.children = endPosition children + s.entries.length := by
        rw [hchildren, endPosition_withBlock _ (isBlank_toNode last), hlast]
        simp
      cases anchor with
      | none => rw [hindex, Option.bind_none, Option.getD_none, hend]
      | some a =>
        obtain ⟨hno, hfront⟩ := hless a rfl
        rw [afterAnchor?_eq_none_iff] at hno
        rw [hlast, List.dropLast_concat] at hfront
        cases hp : a last with
        | false =>
          -- no entry satisfies the anchor, so the next one goes to the end as well
          have hnone : afterAnchor? a s.children = none := by
            rw [afterAnchor?_eq_none_iff, hchildren, elementsOf_withBlock]
            intro e he
            simp only [elementsOf_take_endPosition, elementsOf_drop_endPosition, elementsOf_append,
              elementsOf_map_toNode, List.append_nil, List.mem_append] at he
            rcases he with he | he | he
            · exact hno e he
            · exact hfront e he
            · have : e = last := by simpa [elementsOf] using he
              rw [this, hp]
          rw [hindex, Option.bind_some, hnone, Option.getD_none, hend]
        | true =>
          have hsome : afterAnchor? a s.children =
              some ((children.take (endPosition children) ++ front.map Element.toNode).length + 1) := by
            have hw : s.children = (children.take (endPosition children) ++ front.map Element.toNode) ++
                last.toNode :: children.drop (endPosition children) := by
              rw [hchildren]
              simp [withBlock]
            rw [hw]
            apply afterAnchor?_append last _ _ hp
            intro e he
            rw [elementsOf_append, elementsOf_take_endPosition, elementsOf_map_toNode,
              List.mem_append] at he
            rcases he with he | he
            · exact hno e he
            · exact hfront e he
          rw [Option.bind_some, hsome, Option.getD_some, hindex, hlast, List.length_append,
            List.length_take, Nat.min_eq_left (endPosition_le children)]
          simp [Nat.add_assoc]

theorem Addition.add_of_absent {same : Match} {anchor : Option (Element → Bool)} {owner : String}
    {s : Addition} {c : Element} (h : (elementsOf s.children).any (same · c) = false) :
    Addition.add same anchor owner s c =
      { children := insertNodes [c.toNode]
          ((s.cursor.or (anchor.bind (afterAnchor? · s.children))).getD (endPosition s.children))
          s.children
        entries := s.entries ++ [c]
        log := s.log ++ [entryRecord "Added entry" c "to" owner]
        cursor := (s.cursor.or (anchor.bind (afterAnchor? · s.children))).map fun _ =>
          (s.cursor.or (anchor.bind (afterAnchor? · s.children))).getD (endPosition s.children) + 1 } := by
  have hf : (elementsOf s.children).find? (same · c) = none := by
    rw [List.find?_eq_none]
    simpa using h
  rw [Addition.add, hf]

theorem Addition.add_of_present {same : Match} (anchor : Option (Element → Bool)) (owner : String)
    {s : Addition} {c : Element} (h : (elementsOf s.children).any (same · c) = true) :
    (Addition.add same anchor owner s c).children = s.children ∧
      (Addition.add same anchor owner s c).entries = s.entries ∧
      (Addition.add same anchor owner s c).cursor = s.cursor := by
  rw [Addition.add]
  cases hf : (elementsOf s.children).find? (same · c) with
  | some existing => exact ⟨rfl, rfl, rfl⟩
  | none =>
    rw [List.find?_eq_none] at hf
    obtain ⟨e, he, hs⟩ := List.any_eq_true.mp h
    exact absurd hs (hf e he)

theorem Placed.add (same : Match) {anchor : Option (Element → Bool)} (owner : String)
    {children : List Node} {s : Addition} (h : Placed anchor children s) (c : Element) :
    Placed anchor children (Addition.add same anchor owner s c) := by
  cases hany : (elementsOf s.children).any (same · c) with
  | true =>
    obtain ⟨hch, hen, hcu⟩ := Addition.add_of_present anchor owner hany
    exact ⟨by rw [hch, hen]; exact h.children_eq, by rw [hcu, hen]; exact h.cursor_eq,
      by rw [hcu, hen]; exact h.anchorless⟩
  | false =>
    rw [Addition.add_of_absent hany, h.place_eq]
    refine ⟨?_, ?_, ?_⟩
    · dsimp only
      have hlen : s.entries.length = (s.entries.map Element.toNode).length := by simp
      rw [h.children_eq, hlen, insertNodes_withBlock (additionIndex_le anchor children)]
      simp
    · dsimp only
      intro i hi
      obtain ⟨-, -, rfl⟩ := Option.map_eq_some_iff.mp hi
      rw [List.length_append, List.length_singleton, Nat.add_assoc]
    · dsimp only
      intro hnone hne a ha
      rw [Option.map_eq_none_iff, Option.or_eq_none_iff] at hnone
      obtain ⟨hcursor, hplace⟩ := hnone
      rw [Option.mem_def.mp ha, Option.bind_some, afterAnchor?_eq_none_iff] at hplace
      rw [h.children_eq, elementsOf_withBlock] at hplace
      constructor
      · rw [afterAnchor?_eq_none_iff, ← elementsOf_take_drop children (additionIndex anchor children)]
        intro e he
        apply hplace
        rcases List.mem_append.mp he with he | he
        · exact List.mem_append_left _ he
        · exact List.mem_append_right _ (List.mem_append_right _ he)
      · rw [List.dropLast_concat]
        intro e he
        apply hplace
        rw [elementsOf_map_toNode]
        exact List.mem_append_right _ (List.mem_append_left _ he)

theorem Placed.start (anchor : Option (Element → Bool)) (children : List Node) :
    Placed anchor children { children := children } :=
  ⟨(withBlock_nil children _).symm, by simp, by simp⟩

/-- Which entries an addition has after some candidates. -/
theorem entries_foldl_add (same : Match) {anchor : Option (Element → Bool)} (owner : String)
    {children : List Node} (cs : List Element) {s : Addition} (h : Placed anchor children s) :
    Placed anchor children (cs.foldl (Addition.add same anchor owner) s) ∧
      (cs.foldl (Addition.add same anchor owner) s).entries =
        s.entries ++ newcomers same id (elementsOf children ++ s.entries) cs := by
  induction cs generalizing s with
  | nil => exact ⟨h, (List.append_nil _).symm⟩
  | cons c cs ih =>
    have hmem : ∀ e, e ∈ elementsOf s.children ↔ e ∈ elementsOf children ++ s.entries := by
      intro e
      rw [h.children_eq, elementsOf_withBlock, elementsOf_map_toNode,
        ← elementsOf_take_drop children (additionIndex anchor children)]
      simp only [List.mem_append]
      grind
    have hany : (elementsOf s.children).any (same · c) =
        (elementsOf children ++ s.entries).any (same · c) := by
      rw [Bool.eq_iff_iff, List.any_eq_true, List.any_eq_true]
      exact exists_congr fun e => and_congr_left fun _ => hmem e
    obtain ⟨hp, he⟩ := ih (h.add same owner c)
    refine ⟨hp, ?_⟩
    rw [List.foldl_cons, he, newcomers_cons]
    simp only [id]
    rw [← hany]
    cases hb : (elementsOf s.children).any (same · c) with
    | true =>
      rw [(Addition.add_of_present anchor owner hb).2.1, if_pos rfl]
    | false =>
      rw [Addition.add_of_absent hb]
      simp

/-- The candidates that are added stand in one block, which the anchor or the end places. -/
theorem addMissing_eq (same : Match) (anchor : Option (Element → Bool)) (owner : String)
    (candidates : List Element) (children : List Node) :
    (addMissing same anchor owner candidates children).entries =
        newcomers same id (elementsOf children) candidates ∧
      (addMissing same anchor owner candidates children).children =
        withBlock children (additionIndex anchor children)
          ((newcomers same id (elementsOf children) candidates).map Element.toNode) := by
  obtain ⟨hp, he⟩ := entries_foldl_add same owner candidates
    (Placed.start anchor children)
  have he' : (addMissing same anchor owner candidates children).entries =
      newcomers same id (elementsOf children) candidates := by
    simpa [addMissing] using he
  refine ⟨he', ?_⟩
  rw [← he']
  exact hp.children_eq

/-! Removals. -/

theorem removeFrom_eq (unwanted : Element → Bool) (owner : String) (before nodes : List Node) :
    elementsOf (removeFrom unwanted owner before nodes).children =
        elementsOf before.reverse ++ (elementsOf nodes).filter (!unwanted ·) ∧
      (removeFrom unwanted owner before nodes).entries = (elementsOf nodes).filter unwanted := by
  induction nodes generalizing before with
  | nil => simp [removeFrom]
  | cons node rest ih =>
    rw [removeFrom]
    cases he : node.element? with
    | none =>
      obtain ⟨h1, h2⟩ := ih (node :: before)
      rw [Option.filter_none, h1, h2]
      simp [elementsOf, he]
    | some e =>
      cases hu : unwanted e with
      | false =>
        obtain ⟨h1, h2⟩ := ih (node :: before)
        rw [Option.filter_some, hu]
        simp only [Bool.false_eq_true, if_false]
        rw [h1, h2]
        simp [elementsOf, he, hu]
      | true =>
        obtain ⟨h1, h2⟩ := ih (dropBlank before)
        have hd : elementsOf (dropBlank before).reverse = elementsOf before.reverse := by
          cases before with
          | nil => rfl
          | cons n before =>
            rw [dropBlank]
            split
            · next hb =>
              have hn : elementsOf [n] = [] := elementsOf_eq_nil_of_blank (by simpa using hb)
              rw [List.reverse_cons, elementsOf_append, hn, List.append_nil]
            · rfl
        rw [Option.filter_some, hu]
        simp only [if_true]
        rw [h1, h2, hd]
        simp [elementsOf, he, hu]

/-- The name of the owner is for the log only. -/
theorem children_removeFrom_owner (unwanted : Element → Bool) (owner owner' : String)
    (before nodes : List Node) :
    (removeFrom unwanted owner before nodes).children =
      (removeFrom unwanted owner' before nodes).children := by
  induction nodes generalizing before with
  | nil => rfl
  | cons node rest ih =>
    rw [removeFrom, removeFrom]
    split
    · exact ih _
    · exact ih _

@[simp] theorem elementsOf_removeFrom (unwanted : Element → Bool) (owner : String)
    (nodes : List Node) :
    elementsOf (removeFrom unwanted owner [] nodes).children =
      (elementsOf nodes).filter (!unwanted ·) := by
  simpa using (removeFrom_eq unwanted owner [] nodes).1

@[simp] theorem entries_removeFrom (unwanted : Element → Bool) (owner : String)
    (nodes : List Node) :
    (removeFrom unwanted owner [] nodes).entries = (elementsOf nodes).filter unwanted :=
  (removeFrom_eq unwanted owner [] nodes).2

/-- Some nodes without the entries that are unwanted. -/
def withoutEntries (unwanted : Element → Bool) (nodes : List Node) : List Node :=
  nodes.filter fun node => !(node.element?.any unwanted)

theorem dropBlank_spec (nodes : List Node) :
    (dropBlank nodes).Sublist nodes ∧
      (dropBlank nodes).filter (!·.isBlank) = nodes.filter (!·.isBlank) := by
  cases nodes with
  | nil => exact ⟨.slnil, rfl⟩
  | cons node rest =>
    rw [dropBlank]
    split
    · next h => exact ⟨List.sublist_cons_self _ _, by simp [h]⟩
    · exact ⟨List.Sublist.refl _, rfl⟩

/-- A removal takes out unwanted entries and blank text, and nothing else. -/
theorem removeFrom_spec (unwanted : Element → Bool) (owner : String) (before nodes : List Node) :
    (removeFrom unwanted owner before nodes).children.Sublist (before.reverse ++ nodes) ∧
      (removeFrom unwanted owner before nodes).children.filter (!·.isBlank) =
        (before.reverse ++ withoutEntries unwanted nodes).filter (!·.isBlank) := by
  induction nodes generalizing before with
  | nil => simp [removeFrom, withoutEntries]
  | cons node rest ih =>
    rw [removeFrom]
    cases he : node.element?.filter unwanted with
    | none =>
      have hkeep : node.element?.any unwanted = false := by
        cases hx : node.element? with
        | none => rfl
        | some e => simpa [hx, Option.filter] using he
      have hsub := (ih (node :: before)).1
      rw [List.reverse_cons, List.append_assoc, List.singleton_append] at hsub
      refine ⟨hsub, ?_⟩
      rw [(ih (node :: before)).2, withoutEntries, withoutEntries, List.filter_cons, hkeep]
      simp
    | some e =>
      obtain ⟨helement, hunwanted⟩ := Option.filter_eq_some_iff.mp he
      obtain ⟨hsub, hfilter⟩ := ih (dropBlank before)
      obtain ⟨hdrop, hblank⟩ := dropBlank_spec before
      constructor
      · exact hsub.trans (hdrop.reverse.append (List.sublist_cons_self _ _))
      · rw [hfilter, List.filter_append, List.filter_reverse, hblank, ← List.filter_reverse,
          ← List.filter_append, withoutEntries, withoutEntries, List.filter_cons_of_neg]
        simp [helement, hunwanted]

end Manifest
