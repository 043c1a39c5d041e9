import Manifest.Proofs.Marks
import Manifest.Proofs.Merge.Rerun

/-! Refreshing a section that was written and read. The entries that were added are spread over lines of
their own, and what stood around them may be laid out anew, but the marks of all entries are what they
were. So the same entries are unwanted, and they are put back where they were. -/

set_option autoImplicit false

namespace Manifest

/-! Removing what is spread out. -/

/-- Entries with white space between them. -/
def spread (gap : Node) : List Element → List Node
  | [] => []
  | e :: rest => e.toNode :: rest.flatMap fun x => [gap, x.toNode]

theorem elementsOf_spread {gap : Node} (hgap : gap.isBlank = true) (es : List Element) :
    elementsOf (spread gap es) = es := by
  have hpairs : ∀ es : List Element, elementsOf (es.flatMap fun x => [gap, x.toNode]) = es := by
    intro es
    induction es with
    | nil => rfl
    | cons e es ih =>
      rw [List.flatMap_cons, elementsOf_append, ih]
      cases gap <;> first | rfl | cases hgap
  cases es with
  | nil => rfl
  | cons e es => rw [spread, elementsOf_toNode_cons, hpairs]

theorem element?_of_isBlank {node : Node} (h : node.isBlank = true) : node.element? = none := by
  cases node <;> first | rfl | cases h

section
variable {unwanted : Element → Bool} (owner : String) {gap : Node}

theorem removeFrom_unwanted {e : Element} (h : unwanted e = true) (before rest : List Node) :
    (removeFrom unwanted owner before (e.toNode :: rest)).children =
      (removeFrom unwanted owner (dropBlank before) rest).children := by
  have hsome : e.toNode.element?.filter unwanted = some e := by simp [Option.filter, h]
  rw [removeFrom, hsome]

theorem removeFrom_blank {node : Node} (h : node.isBlank = true) (before rest : List Node) :
    (removeFrom unwanted owner before (node :: rest)).children =
      (removeFrom unwanted owner (node :: before) rest).children := by
  rw [removeFrom, element?_of_isBlank h]
  rfl

/-- Unwanted entries take the white space in front of them along. -/
theorem removeFrom_pairs (hgap : gap.isBlank = true) {es : List Element}
    (hes : ∀ e ∈ es, unwanted e = true) (before rest : List Node) :
    (removeFrom unwanted owner before ((es.flatMap fun x => [gap, x.toNode]) ++ rest)).children =
      (removeFrom unwanted owner before rest).children := by
  induction es with
  | nil => rfl
  | cons e es ih =>
    rw [List.flatMap_cons, List.append_assoc, List.cons_append, List.singleton_append,
      removeFrom_blank owner hgap, removeFrom_unwanted owner (hes e List.mem_cons_self), dropBlank,
      if_pos hgap]
    exact ih fun x hx => hes x (List.mem_cons_of_mem _ hx)

theorem children_removeFrom_spread {front back : List Node} {lead : Option Node} {es : List Element}
    (hfront : ∀ e ∈ elementsOf front, unwanted e = false)
    (hlast : ∀ n ∈ front.getLast?, n.isBlank = false) (hlead : ∀ n ∈ lead, n.isBlank = true)
    (hgap : gap.isBlank = true) (hne : es ≠ []) (hes : ∀ e ∈ es, unwanted e = true)
    (hback : ∀ e ∈ elementsOf back, unwanted e = false) :
    (removeFrom unwanted owner [] (front ++ (lead.toList ++ (spread gap es ++ back)))).children =
      front ++ back := by
  obtain ⟨e, es, rfl⟩ := List.exists_cons_of_ne_nil hne
  have hdrop : dropBlank front.reverse = front.reverse := by
    rw [← List.head?_reverse] at hlast
    cases hr : front.reverse with
    | nil => rfl
    | cons n rest =>
      rw [hr] at hlast
      rw [dropBlank, hlast n rfl, if_neg (by simp)]
  have hfirst : (removeFrom unwanted owner [] (front ++ (lead.toList ++ (spread gap (e :: es) ++ back)))).children =
      (removeFrom unwanted owner front.reverse
        ((es.flatMap fun x => [gap, x.toNode]) ++ back)).children := by
    rw [children_removeFrom_append unwanted owner [] _ hfront, List.append_nil, spread,
      List.cons_append]
    cases lead with
    | none =>
      rw [Option.toList_none, List.nil_append, removeFrom_unwanted owner (hes e List.mem_cons_self),
        hdrop]
    | some n =>
      rw [Option.toList_some, List.singleton_append, removeFrom_blank owner (hlead n rfl),
        removeFrom_unwanted owner (hes e List.mem_cons_self), dropBlank, if_pos (hlead n rfl)]
  have hend := children_removeFrom_append unwanted owner front.reverse [] hback
  rw [List.append_nil] at hend
  rw [hfirst, removeFrom_pairs owner hgap fun x hx => hes x (List.mem_cons_of_mem _ hx), hend,
    removeFrom]
  simp

end

/-! Adding to entries with the same marks. -/

/-- What is told by the marks of entries is the same for entries with the same marks. -/
theorem map_eq_of_marks {α : Type} {identity : Identity} {p : Element → α}
    (hp : ∀ {e e' : Element}, identity.marks e = identity.marks e' → p e = p e')
    {as bs : List Element} (h : as.map identity.marks = bs.map identity.marks) :
    as.map p = bs.map p := by
  induction as generalizing bs with
  | nil =>
    rw [List.map_nil, eq_comm, List.map_eq_nil_iff] at h
    rw [h]
  | cons a as ih =>
    cases bs with
    | nil => cases h
    | cons b bs =>
      rw [List.map_cons, List.map_cons, List.cons.injEq] at h
      rw [List.map_cons, List.map_cons, hp h.1, ih h.2]

theorem all_eq_of_map {p : Element → Bool} {value : Bool} {as bs : List Element}
    (h : as.map p = bs.map p) (hbs : ∀ b ∈ bs, p b = value) : ∀ a ∈ as, p a = value := by
  intro a ha
  have hmem : p a ∈ bs.map p := h ▸ List.mem_map_of_mem ha
  obtain ⟨b, hb, hba⟩ := List.mem_map.mp hmem
  rw [← hba, hbs b hb]

/--
A refresh that compares entries by an identity, and places new ones after the entry that some
coordinates pick: what it removes besides the stale entries is what it puts back.
-/
structure Renewal.Regular (r : Renewal) (identity : Identity) (anchor : Option Anchor) : Prop where
  same : r.same = identity.same
  anchor : r.anchor = anchor.map Anchor.holds
  removal : r.removal = none
  self : ∀ c ∈ r.candidates, identity.same c c = true

/-- What a refresh keeps in front of the entries that it adds. -/
def Renewal.front (r : Renewal) (children : List Node) : List Node :=
  (r.kept children).take (additionIndex r.anchor (r.kept children))

/-- What a refresh keeps behind the entries that it adds. -/
def Renewal.back (r : Renewal) (children : List Node) : List Node :=
  (r.kept children).drop (additionIndex r.anchor (r.kept children))

theorem Renewal.front_append_back (r : Renewal) (children : List Node) :
    r.front children ++ r.back children = r.kept children :=
  List.take_append_drop _ _

theorem Renewal.children_eq (r : Renewal) (owner : String) (children : List Node) :
    (refresh r owner children).children =
      r.front children ++ ((r.block children).map Element.toNode ++ r.back children) :=
  children_refresh r owner children

/--
A section in which the entries around a block have the marks of those that a refresh kept, and stand as
they did, but for white space.
-/
structure Renewal.Rereads (r : Renewal) (identity : Identity) (children front : List Node)
    (lead : Option Node) (gap : Node) (es : List Element) (back : List Node) : Prop where
  marksFront : (elementsOf front).map identity.marks =
    (elementsOf (r.front children)).map identity.marks
  marksBlock : es.map identity.marks = (r.block children).map identity.marks
  marksBack : (elementsOf back).map identity.marks =
    (elementsOf (r.back children)).map identity.marks
  last : ∀ n ∈ front.getLast?, n.isBlank = false
  anchored : ∀ x : Element, (r.front children).getLast? = some x.toNode →
    ∃ y : Element, front.getLast? = some y.toNode
  blank : (∀ n ∈ r.back children, n.isBlank = true) → ∀ n ∈ back, n.isBlank = true
  leadBlank : ∀ n ∈ lead, n.isBlank = true
  gapBlank : gap.isBlank = true

namespace Renewal

variable {r : Renewal} {identity : Identity} {anchor : Option Anchor} {children front back : List Node}
  {lead : Option Node} {gap : Node} {es : List Element}

theorem Regular.unwanted_of_marks (hr : r.Regular identity anchor) {e e' : Element}
    (h : identity.marks e = identity.marks e') : r.unwanted e = r.unwanted e' := by
  rw [Renewal.unwanted, hr.removal, Option.getD_none, hr.same]
  simp only [isNamed, List.any_cons, List.any_nil, Identity.same_of_marks h]

theorem Regular.anchor_of_marks (hr : r.Regular identity anchor) {a : Element → Bool}
    (ha : r.anchor = some a) {e e' : Element} (h : identity.marks e = identity.marks e') :
    a e = a e' := by
  rw [hr.anchor, Option.map_eq_some_iff] at ha
  obtain ⟨coordinates, -, rfl⟩ := ha
  exact Identity.holds_of_marks h coordinates

/-- What is added is removed when the section is refreshed again. -/
theorem Regular.unwanted_of_mem_block (hr : r.Regular identity anchor) {e : Element}
    (he : e ∈ r.block children) : r.unwanted e = true := by
  have hmem : e ∈ r.candidates := (newcomers_sublist _ _).subset he
  rw [Renewal.unwanted, hr.removal, Option.getD_none, hr.same, isNamed, List.any_cons,
    List.any_eq_true.mpr ⟨e, List.mem_append_right _ hmem, hr.self e hmem⟩, Bool.true_or]

/-- Some candidate is always added, as no entry that is kept is the same as one. -/
theorem Regular.block_ne_nil (hr : r.Regular identity anchor) (hne : r.candidates ≠ []) :
    r.block children ≠ [] := by
  obtain ⟨c, cs, hcs⟩ := List.exists_cons_of_ne_nil hne
  rw [Renewal.block, hcs]
  refine newcomers_ne_nil fun e he => ?_
  have hno := not_unwanted_of_mem_kept he
  rw [Renewal.unwanted, hr.removal, Option.getD_none, isNamed, List.any_cons, List.any_nil,
    Bool.or_false, List.any_eq_false] at hno
  simpa using hno c (List.mem_append_right _ (by simp [hcs]))

theorem Rereads.marks (h : r.Rereads identity children front lead gap es back) :
    (elementsOf (front ++ back)).map identity.marks =
      (elementsOf (r.kept children)).map identity.marks := by
  rw [elementsOf_append, List.map_append, h.marksFront, h.marksBack, ← List.map_append,
    ← elementsOf_append, r.front_append_back]

section
variable (hr : r.Regular identity anchor) (h : r.Rereads identity children front lead gap es back)
include hr h

theorem Rereads.kept (hne : r.block children ≠ []) :
    r.kept (front ++ (lead.toList ++ (spread gap es ++ back))) = front ++ back := by
  have hkept : ∀ {nodes : List Node}, (∀ e ∈ elementsOf nodes, e ∈ elementsOf (r.kept children)) →
      ∀ e ∈ elementsOf nodes, r.unwanted e = false :=
    fun hsub e he => not_unwanted_of_mem_kept (hsub e he)
  have hparts := congrArg elementsOf (r.front_append_back children)
  rw [elementsOf_append] at hparts
  refine children_removeFrom_spread "" ?_ h.last h.leadBlank h.gapBlank ?_ ?_ ?_
  · refine all_eq_of_map (map_eq_of_marks hr.unwanted_of_marks h.marksFront) (hkept fun e he => ?_)
    rw [← hparts]
    exact List.mem_append_left _ he
  · rintro rfl
    have hblock := h.marksBlock
    rw [List.map_nil, eq_comm, List.map_eq_nil_iff] at hblock
    exact hne hblock
  · exact all_eq_of_map (map_eq_of_marks hr.unwanted_of_marks h.marksBlock) fun e he =>
      hr.unwanted_of_mem_block he
  · refine all_eq_of_map (map_eq_of_marks hr.unwanted_of_marks h.marksBack) (hkept fun e he => ?_)
    rw [← hparts]
    exact List.mem_append_right _ he

theorem Rereads.block_eq (hne : r.block children ≠ []) :
    r.block (front ++ (lead.toList ++ (spread gap es ++ back))) = r.block children := by
  rw [Renewal.block, h.kept hr hne, Renewal.block]
  refine newcomers_congr_any fun c _ => ?_
  have hmap := map_eq_of_marks (p := fun e => r.same e c)
    (fun {e e'} hm => by rw [hr.same]; exact Identity.same_of_marks hm c) (h.marks)
  have hany := congrArg (List.any · id) hmap
  simpa [List.any_map] using hany

/-- The block goes back between the nodes that stood around it. -/
theorem Rereads.additionIndex_eq : additionIndex r.anchor (front ++ back) = front.length := by
  cases hindex : r.anchor.bind (afterAnchor? · (r.kept children)) with
  | some index =>
    -- the anchor picks the last entry in front
    obtain ⟨a, ha, hafter⟩ := Option.bind_eq_some_iff.mp hindex
    obtain ⟨before, e, after, hkept, rfl, hp, hno⟩ := afterAnchor?_eq_some hafter
    have htake : r.front children = before ++ [e.toNode] := by
      rw [Renewal.front, additionIndex, hindex, Option.getD_some, hkept, List.take_append,
        List.take_of_length_le (by omega)]
      simp
    have hfront := h.marksFront
    obtain ⟨y, hy⟩ := h.anchored e (by rw [htake, List.getLast?_concat])
    obtain ⟨front', rfl⟩ := List.getLast?_eq_some_iff.mp hy
    rw [htake, elementsOf_append, elementsOf_append] at hfront
    have hmap := map_eq_of_marks (hr.anchor_of_marks ha) hfront
    rw [List.map_append, List.map_append] at hmap
    obtain ⟨hbefore, hlast⟩ := List.append_inj' hmap rfl
    have hya : a y = true := by
      rw [← hp]
      exact List.cons.inj hlast |>.1
    have hfound := afterAnchor?_append y back (all_eq_of_map hbefore hno) hya
    rw [List.append_assoc, List.singleton_append, additionIndex, ha, Option.bind_some, hfound,
      Option.getD_some, List.length_append, List.length_singleton]
  | none =>
    have hend : additionIndex r.anchor (r.kept children) = endPosition (r.kept children) := by
      rw [additionIndex, hindex, Option.getD_none]
    have hblank := h.blank (by rw [Renewal.back, hend]; exact fun n hn => isBlank_of_mem_drop_endPosition hn)
    have hnone : r.anchor.bind (afterAnchor? · (front ++ back)) = none := by
      rw [Option.bind_eq_none_iff] at hindex ⊢
      intro a ha
      exact afterAnchor?_eq_none_iff.mpr (all_eq_of_map (map_eq_of_marks (hr.anchor_of_marks ha) h.marks)
        (afterAnchor?_eq_none_iff.mp (hindex a ha)))
    rw [additionIndex, hnone, Option.getD_none]
    rcases List.eq_nil_or_concat front with rfl | ⟨front', n, rfl⟩
    · exact endPosition_of_blank hblank
    · rw [List.concat_eq_append, List.append_assoc, List.singleton_append,
        endPosition_of_blank_tail front' (h.last n (by simp)) hblank]
      simp

/-- Refreshing again puts the entries back where they were, without what was around them. -/
theorem Rereads.children_refresh (hne : r.block children ≠ []) (owner : String) :
    (refresh r owner (front ++ (lead.toList ++ (spread gap es ++ back)))).children =
      front ++ ((r.block children).map Element.toNode ++ back) := by
  rw [Manifest.children_refresh, h.kept hr hne, h.block_eq hr hne, h.additionIndex_eq hr, withBlock,
    List.take_left, List.drop_left]

end

end Renewal

end Manifest
