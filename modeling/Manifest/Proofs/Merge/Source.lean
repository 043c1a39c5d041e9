import Manifest.Proofs.Merge.Carrying

/-! What a section takes over from another one. `CarriesExactly` says it in terms of the indices that the
nodes have in the source: which entries are carried, which comments are theirs, and where all of it goes. The
indices come in order, so no node of the source is taken twice. -/

set_option autoImplicit false

namespace Manifest

variable {α : Type}

/--
In candidates that are ranked one behind another, those are new that no entry present is the same as, nor any
new one before them.
-/
theorem mem_newcomers_iff {same : Match} {key : α → Element} {rank : α → Nat} {present : List Element}
    {cs : List α} (hcs : cs.Pairwise fun a b => rank a < rank b) {c : α} :
    c ∈ newcomers same key present cs ↔
      c ∈ cs ∧ (∀ e ∈ present, same e (key c) = false) ∧
        ∀ d ∈ newcomers same key present cs, rank d < rank c → same (key d) (key c) = false := by
  induction cs generalizing present with
  | nil => simp
  | cons a cs ih =>
    obtain ⟨ha, hcs⟩ := List.pairwise_cons.mp hcs
    rw [newcomers_cons]
    split
    · next hany =>
      rw [ih hcs, List.mem_cons]
      constructor
      · rintro ⟨hc, hrest⟩
        exact ⟨Or.inr hc, hrest⟩
      · rintro ⟨rfl | hc, hno, hrest⟩
        · obtain ⟨e, he, hs⟩ := List.any_eq_true.mp hany
          rw [hno e he] at hs
          cases hs
        · exact ⟨hc, hno, hrest⟩
    · next hany =>
      have hnone : ∀ e ∈ present, same e (key a) = false := by simpa using hany
      rw [List.mem_cons, List.mem_cons]
      constructor
      · rintro (rfl | hc)
        · refine ⟨Or.inl rfl, hnone, fun d hd hlt => ?_⟩
          rcases List.mem_cons.mp hd with rfl | hd
          · omega
          · have hgt := ha d ((newcomers_sublist _ _).subset hd)
            omega
        · obtain ⟨hmem, hno, hrest⟩ := (ih hcs).mp hc
          refine ⟨Or.inr hmem, fun e he => hno e (List.mem_append_left _ he), fun d hd hlt => ?_⟩
          rcases List.mem_cons.mp hd with rfl | hd
          · exact hno (key d) (List.mem_append_right _ (List.mem_singleton_self _))
          · exact hrest d hd hlt
      · rintro ⟨rfl | hc, hno, hrest⟩
        · exact Or.inl rfl
        · refine Or.inr ((ih hcs).mpr ⟨hc, fun e he => ?_, fun d hd => hrest d (List.mem_cons_of_mem a hd)⟩)
          rcases List.mem_append.mp he with he | he
          · exact hno e he
          · rw [List.mem_singleton.mp he]
            exact hrest a List.mem_cons_self (ha c hc)

/-! Indices. -/

/-- The nodes at some indices. -/
def nodesAt (nodes : List Node) (indices : List Nat) : List Node :=
  indices.filterMap (nodes[·]?)

/-- The indices of the comments right above a node: nothing but comments and white space is between. -/
def commentsAbove (nodes : List Node) (i : Nat) : List Nat :=
  (List.range i).filter fun j =>
    nodes[j]?.any Node.isComment &&
      ((nodes.take i).drop (j + 1)).all fun node => node.isComment || node.isBlank

/-- The indices of what is carried of an entry: the comments right above it and the entry itself. -/
def pieceIndices (nodes : List Node) (i : Nat) : List Nat :=
  commentsAbove nodes i ++ [i]

theorem mem_commentsAbove {nodes : List Node} {i j : Nat} (h : j ∈ commentsAbove nodes i) :
    j < i ∧ nodes[j]?.any Node.isComment = true ∧
      ∀ k, j < k → k < i → ∀ node ∈ nodes[k]?, (node.isComment || node.isBlank) = true := by
  rw [commentsAbove, List.mem_filter, List.mem_range, Bool.and_eq_true, List.all_eq_true] at h
  obtain ⟨hlt, hcomment, hbetween⟩ := h
  refine ⟨hlt, hcomment, fun k hjk hki node hk => hbetween node ?_⟩
  have hat : ((nodes.take i).drop (j + 1))[k - (j + 1)]? = some node := by
    rw [List.getElem?_drop, Nat.add_sub_cancel' hjk, List.getElem?_take, if_pos hki]
    exact hk
  exact List.mem_of_getElem? hat

/-- One node more above: it is among the comments, or between them, or it ends them. -/
theorem commentsAbove_succ {nodes : List Node} {i : Nat} {node : Node} (h : nodes[i]? = some node) :
    commentsAbove nodes (i + 1) =
      (if node.isComment || node.isBlank then commentsAbove nodes i else []) ++
        if node.isComment then [i] else [] := by
  have hi : i < nodes.length := (List.getElem?_eq_some_iff.mp h).1
  have htake : nodes.take (i + 1) = nodes.take i ++ [node] := by rw [List.take_add_one, h]; rfl
  have hlast : ∀ j, ((nodes.take (i + 1)).drop (j + 1)).all (fun node => node.isComment || node.isBlank) =
      (((nodes.take i).drop (j + 1)).all (fun node => node.isComment || node.isBlank) &&
        (decide (i ≤ j) || (node.isComment || node.isBlank))) := by
    intro j
    rw [htake, List.drop_append, List.all_append, List.length_take, Nat.min_eq_left (Nat.le_of_lt hi)]
    congr 1
    by_cases hij : i ≤ j
    · rw [List.drop_of_length_le (by simp; omega)]
      simp [hij]
    · have hzero : j + 1 - i = 0 := by omega
      rw [hzero]
      simp [hij]
  rw [commentsAbove, List.range_succ, List.filter_append]
  congr 1
  · cases hgap : node.isComment || node.isBlank with
    | true =>
      rw [if_pos rfl, commentsAbove]
      refine List.filter_congr fun j _ => ?_
      rw [hlast, hgap, Bool.or_true, Bool.and_true]
    | false =>
      rw [if_neg (by simp), List.filter_eq_nil_iff]
      intro j hj
      have hij : ¬ i ≤ j := Nat.not_le.mpr (List.mem_range.mp hj)
      rw [hlast, hgap, decide_eq_false hij]
      simp
  · have hnone : (nodes.take (i + 1)).drop (i + 1) = [] := List.drop_of_length_le (List.length_take_le _ _)
    rw [List.filter_singleton, h, hnone]
    cases hcomment : node.isComment <;> simp [hcomment]

theorem leadingComments_concat (before : List Node) (node : Node) :
    leadingComments (before ++ [node]) =
      (if node.isComment || node.isBlank then leadingComments before else []) ++
        if node.isComment then [node] else [] := by
  rw [leadingComments, List.reverse_append, List.reverse_singleton, List.singleton_append,
    List.takeWhile_cons]
  cases hgap : node.isComment || node.isBlank with
  | true =>
    rw [if_pos rfl, if_pos rfl, List.filter_cons]
    cases node.isComment with
    | true => rw [if_pos rfl, if_pos rfl, List.reverse_cons]; rfl
    | false => rw [if_neg (by simp), if_neg (by simp), List.append_nil]; rfl
  | false =>
    have hcomment : node.isComment = false := (Bool.or_eq_false_iff.mp hgap).1
    rw [if_neg (by simp), if_neg (by simp), hcomment]
    rfl

/-- The comments that an entry brings stand at the indices of the comments right above it. -/
theorem leadingComments_take (nodes : List Node) {i : Nat} (hi : i ≤ nodes.length) :
    leadingComments (nodes.take i) = nodesAt nodes (commentsAbove nodes i) := by
  induction i with
  | zero => rfl
  | succ i ih =>
    have hat : nodes[i]? = some nodes[i] := List.getElem?_eq_getElem hi
    rw [List.take_succ_eq_append_getElem hi, leadingComments_concat, commentsAbove_succ hat,
      ih (Nat.le_of_succ_le hi), nodesAt, nodesAt, List.filterMap_append]
    congr 1
    · split <;> rfl
    · split
      · simp [hat]
      · rfl

/-! Entries with what stands before them. -/

theorem mem_approaches {before nodes : List Node} {x : List Node × Element} :
    x ∈ approaches before nodes ↔
      ∃ front back, nodes = front ++ x.2.toNode :: back ∧ x.1 = before ++ front := by
  induction nodes generalizing before with
  | nil => simp
  | cons node rest ih =>
    have hbehind : (∃ front back, rest = front ++ x.2.toNode :: back ∧ x.1 = before ++ [node] ++ front) →
        ∃ front back, node :: rest = front ++ x.2.toNode :: back ∧ x.1 = before ++ front := by
      rintro ⟨front, back, rfl, hx⟩
      exact ⟨node :: front, back, rfl, by rw [hx, List.append_assoc]; rfl⟩
    have hsplit : (∃ front back, node :: rest = front ++ x.2.toNode :: back ∧ x.1 = before ++ front) →
        node = x.2.toNode ∧ x.1 = before ∨
          ∃ front back, rest = front ++ x.2.toNode :: back ∧ x.1 = before ++ [node] ++ front := by
      rintro ⟨front, back, hnodes, hx⟩
      cases front with
      | nil => exact Or.inl ⟨(List.cons.inj hnodes).1, by rw [hx, List.append_nil]⟩
      | cons _ front =>
        obtain ⟨rfl, hrest⟩ := List.cons.inj hnodes
        exact Or.inr ⟨front, back, hrest, by rw [hx, List.append_assoc]; rfl⟩
    rw [approaches_cons]
    cases he : node.element? with
    | none =>
      refine ih.trans ⟨hbehind, fun h => (hsplit h).resolve_left ?_⟩
      rintro ⟨rfl, -⟩
      cases he
    | some e =>
      rw [List.mem_cons, ih]
      constructor
      · rintro (rfl | h)
        · exact ⟨[], rest, by rw [Element.toNode_of_element? he]; rfl, (List.append_nil _).symm⟩
        · exact hbehind h
      · intro h
        refine (hsplit h).imp_left ?_
        rintro ⟨hnode, hx⟩
        refine Prod.ext hx ?_
        rw [hnode, Element.element?_toNode] at he
        exact Option.some.inj he

theorem pairwise_approaches (before nodes : List Node) :
    (approaches before nodes).Pairwise fun x y => x.1.length < y.1.length := by
  induction nodes generalizing before with
  | nil => exact .nil
  | cons node rest ih =>
    rw [approaches_cons]
    cases node.element? with
    | none => exact ih _
    | some e =>
      refine List.pairwise_cons.mpr ⟨fun x hx => ?_, ih _⟩
      obtain ⟨front, -, -, hx⟩ := mem_approaches.mp hx
      rw [hx]
      simp

/-- What stands before an entry is what the source has up to its index, and the entry stands there. -/
theorem of_mem_approaches {source : List Node} {x : List Node × Element} (h : x ∈ approaches [] source) :
    x.1 = source.take x.1.length ∧ source[x.1.length]? = some x.2.toNode := by
  obtain ⟨front, back, hsource, hx⟩ := mem_approaches.mp h
  rw [List.nil_append] at hx
  rw [hx, hsource]
  simp

theorem exists_mem_approaches {source : List Node} {i : Nat} {e : Element}
    (h : source[i]? = some e.toNode) : (source.take i, e) ∈ approaches [] source := by
  obtain ⟨hi, he⟩ := List.getElem?_eq_some_iff.mp h
  refine mem_approaches.mpr ⟨source.take i, source.drop (i + 1), ?_, rfl⟩
  rw [← he, ← List.drop_eq_getElem_cons hi, List.take_append_drop]

theorem carriedPiece_eq {source : List Node} {x : List Node × Element} (h : x ∈ approaches [] source) :
    carriedPiece x = nodesAt source (pieceIndices source x.1.length) := by
  obtain ⟨htake, hat⟩ := of_mem_approaches h
  have hcomments := leadingComments_take source (Nat.le_of_lt (List.getElem?_eq_some_iff.mp hat).1)
  rw [← htake] at hcomments
  rw [carriedPiece, hcomments, pieceIndices, nodesAt, nodesAt, List.filterMap_append]
  simp [hat]

/-! What is carried. -/

/--
That a section has taken over exactly what it lacked of a source, given the indices of the carried entries. These
are in order; an entry is carried if neither an original entry of the section nor one carried before it is the
same. The nodes of the section up to the last one that is not blank come first, then each carried entry with the
comments right above it, as they stand in the source and none of them twice, then the white space at the end.
-/
structure CarriesExactly (same : Match) (source children : List Node) (carried : List Nat) (c : Change) :
    Prop where
  sorted : carried.Pairwise (· < ·)
  carried_iff : ∀ i, i ∈ carried ↔ ∃ e : Element, source[i]? = some e.toNode ∧
    (∀ x ∈ elementsOf children, same x e = false) ∧
      ∀ j ∈ carried, j < i → ∀ x : Element, source[j]? = some x.toNode → same x e = false
  children_eq : ∃ front tail, children = front ++ tail ∧ (∀ n ∈ tail, n.isBlank = true) ∧
    (∀ n ∈ front.getLast?, n.isBlank = false) ∧
      c.children = front ++ (nodesAt source (carried.flatMap (pieceIndices source)) ++ tail)
  entries_eq : c.entries.map Element.toNode = nodesAt source carried
  once : (carried.flatMap (pieceIndices source)).Pairwise (· < ·)

/-- The indices of what is carried are in order: the comments above an entry stand behind the entry before it. -/
theorem pairwise_pieceIndices {source : List Node} {carried : List Nat} (hsorted : carried.Pairwise (· < ·))
    (hentry : ∀ i ∈ carried, ∃ e : Element, source[i]? = some e.toNode) :
    (carried.flatMap (pieceIndices source)).Pairwise (· < ·) := by
  rw [List.pairwise_flatMap]
  constructor
  · intro i _
    refine List.pairwise_append.mpr ⟨List.pairwise_lt_range.filter _, List.pairwise_singleton _ _, ?_⟩
    intro j hj k hk
    rw [List.mem_singleton.mp hk]
    exact (mem_commentsAbove hj).1
  · refine hsorted.imp_of_mem fun {i k} hi _ hik j hj l hl => ?_
    have hji : j ≤ i := by
      rcases List.mem_append.mp hj with hj | hj
      · exact Nat.le_of_lt (mem_commentsAbove hj).1
      · exact Nat.le_of_eq (List.mem_singleton.mp hj)
    refine Nat.lt_of_le_of_lt hji ?_
    rcases List.mem_append.mp hl with hl | hl
    · obtain ⟨hlk, hcomment, hbetween⟩ := mem_commentsAbove hl
      obtain ⟨e, he⟩ := hentry i hi
      rcases Nat.lt_trichotomy i l with hil | rfl | hli
      · exact hil
      · rw [he] at hcomment
        cases hcomment
      · have hgap := hbetween i hli hik _ he
        cases hgap
    · rw [List.mem_singleton.mp hl]
      exact hik

/-- The entries that are carried, by their indices. -/
def carriedIndices (same : Match) (source children : List Node) : List Nat :=
  (carriedOf same source children).map fun x => x.1.length

theorem mem_carriedIndices {same : Match} {source children : List Node} {i : Nat} {e : Element}
    (he : source[i]? = some e.toNode) :
    i ∈ carriedIndices same source children ↔ (source.take i, e) ∈ carriedOf same source children := by
  have hlength : (source.take i).length = i := by
    rw [List.length_take, Nat.min_eq_left (Nat.le_of_lt (List.getElem?_eq_some_iff.mp he).1)]
  rw [carriedIndices, List.mem_map]
  constructor
  · rintro ⟨x, hx, rfl⟩
    obtain ⟨htake, hat⟩ := of_mem_approaches ((newcomers_sublist _ _).subset hx)
    rw [he, Option.some.injEq] at hat
    have hsnd : e = x.2 := by simpa using congrArg Node.element? hat
    rw [← htake, hsnd]
    exact hx
  · exact fun hx => ⟨_, hx, hlength⟩

theorem mem_carriedIndices_iff {same : Match} {source children : List Node} (i : Nat) :
    i ∈ carriedIndices same source children ↔ ∃ e : Element, source[i]? = some e.toNode ∧
      (∀ x ∈ elementsOf children, same x e = false) ∧
        ∀ j ∈ carriedIndices same source children, j < i → ∀ x : Element,
          source[j]? = some x.toNode → same x e = false := by
  have hlength : ∀ {i : Nat} {e : Element}, source[i]? = some e.toNode → (source.take i).length = i := by
    intro i e he
    rw [List.length_take, Nat.min_eq_left (Nat.le_of_lt (List.getElem?_eq_some_iff.mp he).1)]
  constructor
  · intro hi
    obtain ⟨x, hx, rfl⟩ := List.mem_map.mp hi
    obtain ⟨hmem, hno, hbefore⟩ := (mem_newcomers_iff (pairwise_approaches [] source)).mp hx
    obtain ⟨-, hat⟩ := of_mem_approaches hmem
    refine ⟨x.2, hat, hno, fun j hj hlt y hy => ?_⟩
    exact hbefore _ ((mem_carriedIndices hy).mp hj) (by rw [hlength hy]; exact hlt)
  · rintro ⟨e, he, hno, hbefore⟩
    rw [mem_carriedIndices he]
    refine (mem_newcomers_iff (pairwise_approaches [] source)).mpr ⟨exists_mem_approaches he, hno, ?_⟩
    intro d hd hlt
    obtain ⟨-, hat⟩ := of_mem_approaches ((newcomers_sublist _ _).subset hd)
    rw [hlength he] at hlt
    exact hbefore d.1.length (List.mem_map_of_mem hd) hlt d.2 hat

/-- A section takes over exactly what it lacks of a source. -/
theorem carriesExactly_carry (same : Match) (owner : String) (source children : List Node) :
    CarriesExactly same source children (carriedIndices same source children)
      (carry same owner source children) := by
  obtain ⟨hentries, hchildren⟩ := carry_eq same owner source children
  have hmem : ∀ x ∈ carriedOf same source children, x ∈ approaches [] source :=
    fun x hx => (newcomers_sublist _ _).subset hx
  have hsorted : (carriedIndices same source children).Pairwise (· < ·) :=
    List.pairwise_map.mpr ((pairwise_approaches [] source).sublist (newcomers_sublist _ _))
  refine ⟨hsorted, mem_carriedIndices_iff, ?_, ?_, ?_⟩
  · obtain ⟨front, tail, rfl, hend, htail, hlast⟩ := exists_eq_append_endPosition children
    refine ⟨front, tail, rfl, htail, hlast, ?_⟩
    rw [hchildren, withBlock, hend, List.take_left, List.drop_left, carriedIndices, List.flatMap_map,
      nodesAt, List.filterMap_flatMap]
    congr 2
    exact List.flatMap_congr fun x hx => carriedPiece_eq (hmem x hx)
  · rw [hentries, nodesAt, carriedIndices, List.filterMap_map, List.map_map, ← List.filterMap_eq_map]
    exact List.filterMap_congr fun x hx => (of_mem_approaches (hmem x hx)).2.symm
  · refine pairwise_pieceIndices hsorted fun i hi => ?_
    obtain ⟨e, he, -⟩ := (mem_carriedIndices_iff i).mp hi
    exact ⟨e, he⟩

end Manifest
