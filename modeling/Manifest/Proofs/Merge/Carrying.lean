import Manifest.Proofs.Merge.Addition
import Mathlib.Data.List.Basic
import Mathlib.Data.List.Induction

/-! What carrying leaves. The entries of a source that are carried over are its newcomers; each brings
the comments right above it, and all of them stand in one block behind the last node of the section
that is not blank. -/

set_option autoImplicit false

namespace Manifest

/-- The entries among some nodes, each with the nodes before it. -/
def approaches (before : List Node) : List Node → List (List Node × Element)
  | [] => []
  | node :: rest =>
    match node.element? with
    | some e => (before, e) :: approaches (before ++ [node]) rest
    | none => approaches (before ++ [node]) rest

@[simp] theorem approaches_nil (before : List Node) : approaches before [] = [] := rfl

theorem approaches_cons (before : List Node) (node : Node) (rest : List Node) :
    approaches before (node :: rest) =
      match node.element? with
      | some e => (before, e) :: approaches (before ++ [node]) rest
      | none => approaches (before ++ [node]) rest := rfl

theorem map_snd_approaches (before nodes : List Node) :
    (approaches before nodes).map Prod.snd = elementsOf nodes := by
  induction nodes generalizing before with
  | nil => rfl
  | cons node rest ih =>
    rw [approaches_cons]
    cases he : node.element? with
    | none => simp [elementsOf, he, ih]
    | some e =>
      rw [List.map_cons, ih]
      simp [elementsOf, he]

theorem length_approaches (before nodes : List Node) :
    (approaches before nodes).length = (elementsOf nodes).length := by
  rw [← map_snd_approaches before nodes, List.length_map]

theorem approaches_append (before front back : List Node) :
    approaches before (front ++ back) =
      approaches before front ++ approaches (before ++ front) back := by
  induction front generalizing before with
  | nil => simp
  | cons node rest ih =>
    rw [List.cons_append, approaches_cons, approaches_cons]
    split <;> simp [ih]

theorem getElem?_approaches (before nodes : List Node) (rank : Nat) :
    (approaches before nodes)[rank]? =
      (splitAtRank rank nodes).map fun (front, e) => (before ++ front, e) := by
  induction nodes generalizing before rank with
  | nil => simp [splitAtRank]
  | cons node rest ih =>
    cases he : node.element? with
    | none =>
      simp only [approaches_cons, splitAtRank, he, ih, Option.map_map]
      congr 1
      funext x
      simp
    | some e =>
      cases rank with
      | zero => simp [approaches_cons, splitAtRank, he]
      | succ rank =>
        simp only [approaches_cons, splitAtRank, he, List.getElem?_cons_succ, ih, Option.map_map]
        congr 1
        funext x
        simp

/-- What is carried of an entry: the comments right above it and the entry itself. -/
def carriedPiece (x : List Node × Element) : List Node :=
  leadingComments x.1 ++ [x.2.toNode]

/-- The entries of a source that are carried into a section, each with the nodes before it. -/
def carriedOf (same : Match) (source children : List Node) : List (List Node × Element) :=
  newcomers same Prod.snd (elementsOf children) (approaches [] source)

theorem isComment_of_mem_leadingComments {before : List Node} {n : Node}
    (h : n ∈ leadingComments before) : n.isComment = true := by
  rw [leadingComments, List.mem_reverse] at h
  exact (List.mem_filter.mp h).2

theorem elementsOf_leadingComments (before : List Node) :
    elementsOf (leadingComments before) = [] := by
  apply List.filterMap_eq_nil_iff.mpr
  intro n hn
  have hc := isComment_of_mem_leadingComments hn
  cases n <;> simp_all [Node.isComment, Node.element?]

@[simp] theorem elementsOf_carriedPiece (x : List Node × Element) :
    elementsOf (carriedPiece x) = [x.2] := by
  rw [carriedPiece, elementsOf_append, elementsOf_leadingComments]
  rfl

@[simp] theorem elementsOf_flatMap_carriedPiece (xs : List (List Node × Element)) :
    elementsOf (xs.flatMap carriedPiece) = xs.map Prod.snd := by
  induction xs with
  | nil => rfl
  | cons x xs ih =>
    rw [List.flatMap_cons, elementsOf_append, elementsOf_carriedPiece, ih]
    rfl

theorem foldl_range_getElem? {α β : Type} (f : β → α → β) (xs : List α) (b : β) :
    (List.range xs.length).foldl
        (fun b i => match xs[i]? with | none => b | some x => f b x) b = xs.foldl f b := by
  induction xs using List.reverseRec generalizing b with
  | nil => rfl
  | append_singleton xs x ih =>
    rw [List.length_append, List.length_singleton, List.range_succ, List.foldl_append,
      List.foldl_append, ← ih]
    have hlast : (xs ++ [x])[xs.length]? = some x := by simp
    simp only [List.foldl_cons, List.foldl_nil, hlast]
    congr 1
    apply List.foldl_ext
    intro b i hi
    rw [List.getElem?_append_left (List.mem_range.mp hi)]

theorem carry_eq_foldl (same : Match) (owner : String) (source children : List Node) :
    carry same owner source children =
      (approaches [] source).foldl (fun s x => s.carry same owner x.1 x.2)
        { children := children } := by
  have h := foldl_range_getElem? (fun s x => Change.carry same owner s x.1 x.2)
    (approaches [] source) { children := children }
  rw [← h, length_approaches, carry]
  apply List.foldl_ext
  intro s rank _
  rw [Change.carryRank, getElem?_approaches]
  cases splitAtRank rank source with
  | none => rfl
  | some x => rfl

/-- How a carrying stands: what was carried so far is a block at the end. -/
structure CarriedSoFar (children : List Node) (s : Change) (done : List (List Node × Element)) :
    Prop where
  children_eq : s.children =
    withBlock children (endPosition children) (done.flatMap carriedPiece)
  entries_eq : s.entries = done.map Prod.snd

theorem CarriedSoFar.endPosition_eq {children : List Node} {s : Change}
    {done : List (List Node × Element)} (h : CarriedSoFar children s done) :
    endPosition s.children = endPosition children + (done.flatMap carriedPiece).length := by
  rw [h.children_eq]
  rcases List.eq_nil_or_concat done with rfl | ⟨front, last, rfl⟩
  · rw [List.flatMap_nil, withBlock_nil]
    rfl
  · rw [List.concat_eq_append, List.flatMap_append, List.flatMap_singleton, carriedPiece,
      ← List.append_assoc, endPosition_withBlock _ (isBlank_toNode last.2)]

theorem CarriedSoFar.carry (same : Match) (owner : String) {children : List Node} {s : Change}
    {done : List (List Node × Element)} (h : CarriedSoFar children s done)
    (x : List Node × Element) :
    CarriedSoFar children (s.carry same owner x.1 x.2)
      (if (elementsOf s.children).any (same · x.2) then done else done ++ [x]) := by
  rw [Change.carry]
  split
  · exact h
  · refine ⟨?_, ?_⟩
    · dsimp only
      rw [h.endPosition_eq, h.children_eq, insertNodes_withBlock (endPosition_le children)]
      simp [carriedPiece]
    · dsimp only
      rw [h.entries_eq, List.map_append, List.map_singleton]

theorem CarriedSoFar.elements_eq {children : List Node} {s : Change}
    {done : List (List Node × Element)} (h : CarriedSoFar children s done) :
    elementsOf s.children = elementsOf children ++ done.map Prod.snd := by
  rw [h.children_eq, elementsOf_withBlock_endPosition, elementsOf_flatMap_carriedPiece]

theorem carriedSoFar_foldl (same : Match) (owner : String) {children : List Node}
    (xs : List (List Node × Element)) {s : Change} {done : List (List Node × Element)}
    (h : CarriedSoFar children s done) :
    CarriedSoFar children (xs.foldl (fun s x => s.carry same owner x.1 x.2) s)
      (done ++ newcomers same Prod.snd (elementsOf children ++ done.map Prod.snd) xs) := by
  induction xs generalizing s done with
  | nil => simpa using h
  | cons x xs ih =>
    have hx := h.carry same owner x
    rw [h.elements_eq] at hx
    have hrest := ih hx
    rw [List.foldl_cons, newcomers_cons]
    split at hrest
    · next hany =>
      rw [if_pos hany]
      exact hrest
    · next hany =>
      rw [if_neg hany]
      simpa using hrest

/-- What is carried stands in one block behind the last node that is not blank. -/
theorem carry_eq (same : Match) (owner : String) (source children : List Node) :
    (carry same owner source children).entries =
        (carriedOf same source children).map Prod.snd ∧
      (carry same owner source children).children =
        withBlock children (endPosition children)
          ((carriedOf same source children).flatMap carriedPiece) := by
  have hstart : CarriedSoFar children { children := children } [] :=
    ⟨(withBlock_nil children _).symm, rfl⟩
  have h := carriedSoFar_foldl same owner (approaches [] source) hstart
  rw [← carry_eq_foldl] at h
  simp only [List.map_nil, List.append_nil, List.nil_append] at h
  exact ⟨h.entries_eq, h.children_eq⟩

@[simp] theorem elementsOf_carry (same : Match) (owner : String) (source children : List Node) :
    elementsOf (carry same owner source children).children =
      elementsOf children ++ (carriedOf same source children).map Prod.snd := by
  rw [(carry_eq same owner source children).2, elementsOf_withBlock_endPosition, elementsOf_flatMap_carriedPiece]

theorem map_snd_carriedOf (same : Match) (source children : List Node) :
    (carriedOf same source children).map Prod.snd =
      newcomers same id (elementsOf children) (elementsOf source) := by
  rw [carriedOf, newcomers_map, map_snd_approaches]

end Manifest
