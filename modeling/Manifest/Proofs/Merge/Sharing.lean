import Manifest.Proofs.Merge.Source
import Manifest.Proofs.Section.Position

/-! Carrying between two sections of one document. The source is read anew for every entry. If it does not
contain the target it is the same every time. If it does, one of its entries is around the target and grows
with it; that entry is carried as it stands when its turn comes, and the other entries and all comments are the
same every time. -/

set_option autoImplicit false

namespace Manifest

/-! Children that are put in place more than once, and what stands elsewhere. -/

namespace Element

/--
What is elsewhere stays when new entries come behind those that an element has, unless it contains the
element.
-/
theorem at?_setAt_of_apart {target position : Position} {e owner x : Element} {children : List Node}
    {more : List Element} (howner : e.at? target = some owner) (hx : e.at? position = some x)
    (hapart : ¬ position <+: target) (hmore : elementsOf children = elementsOf owner.children ++ more) :
    (e.setAt target children).at? position = some x := by
  induction target generalizing e position with
  | nil =>
    cases howner
    cases position with
    | nil => exact absurd (List.prefix_refl _) hapart
    | cons rank position =>
      rw [at?, Option.bind_eq_some_iff] at hx ⊢
      obtain ⟨child, hchild, hx⟩ := hx
      refine ⟨child, ?_, hx⟩
      rw [elements] at hchild
      rw [setAt, modifyAt, elements, hmore,
        List.getElem?_append_left (List.getElem?_eq_some_iff.mp hchild).1]
      exact hchild
  | cons first target ih =>
    cases position with
    | nil => exact absurd List.nil_prefix hapart
    | cons rank position =>
      rw [at?, Option.bind_eq_some_iff] at hx howner ⊢
      obtain ⟨child, hchild, hx⟩ := hx
      obtain ⟨child', hchild', howner⟩ := howner
      rw [elements] at hchild hchild'
      rw [setAt_eq, elements, elementsOf_modifyElement, List.getElem?_modify, hchild]
      by_cases hrank : first = rank
      · subst hrank
        rw [hchild] at hchild'
        cases hchild'
        refine ⟨child.setAt target children, by simp, ih howner hx fun hp => hapart ?_⟩
        obtain ⟨rest, hrest⟩ := hp
        exact ⟨rest, by rw [List.cons_append, hrest]⟩
      · exact ⟨child, by simp [hrank], hx⟩

end Element

namespace Document

theorem at?_setChildren_of_apart {d : Document} {target position : Position} {owner x : Element}
    {children : List Node} {more : List Element} (howner : d.at? target = some owner)
    (hx : d.at? position = some x) (hapart : ¬ position <+: target)
    (hmore : elementsOf children = elementsOf owner.children ++ more) :
    (d.setChildren target children).at? position = some x := by
  obtain ⟨root, hroot, ho⟩ := at?_eq_some howner
  rw [Document.at?, hroot, Option.bind_some] at hx
  rw [setChildren_of_root hroot, at?_withRoot (by rw [hroot]; rfl)]
  exact Element.at?_setAt_of_apart ho hx hapart hmore

end Document

/-! The run over the ranks of the source. -/

/-- A section after the entries of the first ranks of a source were carried. -/
def carriedUpTo (same : Match) (owner : Element) (source : List Node) (n : Nat) : Change :=
  (List.range n).foldl (Change.carryRank same owner.name source) { children := owner.children }

theorem carriedUpTo_succ (same : Match) (owner : Element) (source : List Node) (n : Nat) :
    carriedUpTo same owner source (n + 1) =
      (carriedUpTo same owner source n).carryRank same owner.name source n := by
  rw [carriedUpTo, List.range_succ, List.foldl_append]
  rfl

section
variable {same : Match} {d : Document} {target position : Position} {owner : Element}

/-- Entries come behind those that the section has. -/
theorem exists_elements_carryRank (same : Match) (owner : String) (source : List Node) (c : Change)
    (rank : Nat) :
    ∃ more, elementsOf (c.carryRank same owner source rank).children = elementsOf c.children ++ more := by
  rw [Change.carryRank]
  cases splitAtRank rank source with
  | none => exact ⟨[], (List.append_nil _).symm⟩
  | some x =>
    dsimp only
    rw [Change.carry]
    split
    · exact ⟨[], (List.append_nil _).symm⟩
    · refine ⟨[x.2], ?_⟩
      simp [elementsOf_insertNodes, elementsOf_leadingComments]

theorem exists_elements_carriedUpTo (same : Match) (owner : Element) (source : List Node) (n : Nat) :
    ∃ more, elementsOf (carriedUpTo same owner source n).children = elementsOf owner.children ++ more := by
  induction n with
  | zero => exact ⟨[], (List.append_nil _).symm⟩
  | succ n ih =>
    obtain ⟨more, hmore⟩ := ih
    obtain ⟨more', hmore'⟩ := exists_elements_carryRank same owner.name source
      (carriedUpTo same owner source n) n
    exact ⟨more ++ more', by rw [carriedUpTo_succ, hmore', hmore, List.append_assoc]⟩

/--
Carrying inside a document is carrying from some nodes, if at each rank the source as it is found then gives
what these nodes give.
-/
theorem foldl_carryRankWithin (howner : d.at? target = some owner) {source : List Node}
    (hstage : ∀ n, ∃ element,
      (d.setChildren target (carriedUpTo same owner source n).children).at? position = some element ∧
        (carriedUpTo same owner source n).carryRank same owner.name element.children n =
          (carriedUpTo same owner source n).carryRank same owner.name source n) (n : Nat) :
    (List.range n).foldl (Document.carryRankWithin same target position)
        (d, { children := owner.children }) =
      (d.setChildren target (carriedUpTo same owner source n).children, carriedUpTo same owner source n) := by
  induction n with
  | zero => rw [carriedUpTo, List.range_zero, List.foldl_nil, List.foldl_nil, Document.setChildren_self howner]
  | succ n ih =>
    obtain ⟨element, helement, hsame⟩ := hstage n
    rw [← carriedUpTo_succ] at hsame
    rw [List.range_succ, List.foldl_append, ih, List.foldl_cons, List.foldl_nil, Document.carryRankWithin,
      Document.at?_setChildren _ howner, helement, ← hsame]
    exact congrArg (·, _) (Document.setChildren_setChildren d target _ _)

theorem carryWithin_eq (howner : d.at? target = some owner) {element : Element}
    (helement : d.at? position = some element) {source : List Node}
    (hlength : (elementsOf source).length = element.elements.length)
    (hstage : ∀ n, ∃ element,
      (d.setChildren target (carriedUpTo same owner source n).children).at? position = some element ∧
        (carriedUpTo same owner source n).carryRank same owner.name element.children n =
          (carriedUpTo same owner source n).carryRank same owner.name source n) :
    d.carryWithin (some target) same (some position) =
      .ok (d.setChildren target (carry same owner.name source owner.children).children,
        carry same owner.name source owner.children) := by
  have hrun := foldl_carryRankWithin howner hstage element.elements.length
  rw [← hlength] at hrun
  simp only [Document.carryWithin, Option.bind_some, howner, helement, ← hlength, hrun]
  rfl

/-- A source that does not contain the target is the same at every rank. -/
theorem carryWithin_of_apart (howner : d.at? target = some owner) {element : Element}
    (helement : d.at? position = some element) (hapart : ¬ position <+: target) :
    d.carryWithin (some target) same (some position) =
      .ok (d.setChildren target (carry same owner.name element.children owner.children).children,
        carry same owner.name element.children owner.children) := by
  refine carryWithin_eq howner helement rfl fun n => ⟨element, ?_, rfl⟩
  obtain ⟨more, hmore⟩ := exists_elements_carriedUpTo same owner element.children n
  exact Document.at?_setChildren_of_apart howner helement hapart hmore

/-! A source around the target. -/

theorem leadingComments_behind (front : List Node) (e : Element) (back : List Node) :
    leadingComments (front ++ e.toNode :: back) = leadingComments back := by
  induction back using List.reverseRec with
  | nil => exact leadingComments_concat front e.toNode
  | append_singleton back node ih =>
    rw [← List.cons_append, ← List.append_assoc, leadingComments_concat, leadingComments_concat, ih]

theorem approaches_eq_map (before nodes : List Node) :
    approaches before nodes = (approaches [] nodes).map fun x => (before ++ x.1, x.2) := by
  have hmap : ∀ before front, approaches (before ++ front) nodes =
      (approaches front nodes).map fun x => (before ++ x.1, x.2) := by
    intro before front
    induction nodes generalizing front with
    | nil => rfl
    | cons node rest ih =>
      rw [approaches_cons, approaches_cons, List.append_assoc]
      cases node.element? with
      | none => exact ih _
      | some e => rw [List.map_cons, ih]
  simpa using hmap before []

theorem carryRank_eq (same : Match) (owner : String) (source : List Node) (c : Change) (rank : Nat) :
    c.carryRank same owner source rank =
      match (approaches [] source)[rank]? with
      | none => c
      | some x => c.carry same owner x.1 x.2 := by
  rw [Change.carryRank, getElem?_approaches]
  cases splitAtRank rank source <;> rfl

/-- The entries before one of them, that one, and those behind it. -/
theorem approaches_around (front : List Node) (e : Element) (back : List Node) :
    approaches [] (front ++ e.toNode :: back) =
      approaches [] front ++ (front, e) :: (approaches [] back).map fun z => (front ++ e.toNode :: z.1, z.2) := by
  rw [approaches_append, approaches_cons, Element.element?_toNode, List.nil_append,
    approaches_eq_map (front ++ [e.toNode])]
  simp

/-- What is carried of the other ranks does not depend on the entry of one rank. -/
theorem carryRank_congr (same : Match) (owner : String) {front : List Node} (back : List Node)
    (x y : Element) (c : Change) {rank : Nat} (hrank : rank ≠ (elementsOf front).length) :
    c.carryRank same owner (front ++ x.toNode :: back) rank =
      c.carryRank same owner (front ++ y.toNode :: back) rank := by
  have hcarry : ∀ (e : Element) (z : List Node × Element),
      c.carry same owner (front ++ e.toNode :: z.1) z.2 = c.carry same owner z.1 z.2 := by
    intro e z
    rw [Change.carry, Change.carry, leadingComments_behind]
  rw [carryRank_eq, carryRank_eq, approaches_around, approaches_around]
  rcases Nat.lt_or_gt_of_ne hrank with hlt | hgt
  · rw [← length_approaches []] at hlt
    rw [List.getElem?_append_left hlt, List.getElem?_append_left hlt]
  · obtain ⟨k, rfl⟩ := Nat.exists_eq_add_of_lt hgt
    have hindex : (elementsOf front).length + k + 1 = (approaches [] front).length + (k + 1) := by
      rw [length_approaches, Nat.add_assoc]
    rw [hindex, List.getElem?_append_right (Nat.le_add_right _ _),
      List.getElem?_append_right (Nat.le_add_right _ _), Nat.add_sub_cancel_left, List.getElem?_cons_succ,
      List.getElem?_cons_succ, List.getElem?_map, List.getElem?_map]
    cases (approaches [] back)[k]? with
    | none => rfl
    | some z => exact (hcarry x z).trans (hcarry y z).symm

/-- The entries before one rank are carried from the nodes before that entry. -/
theorem carriedUpTo_append (same : Match) (owner : Element) (front back : List Node) :
    carriedUpTo same owner (front ++ back) (elementsOf front).length =
      carry same owner.name front owner.children := by
  rw [carriedUpTo, carry]
  apply List.foldl_ext
  intro c rank hrank
  rw [List.mem_range, ← length_approaches []] at hrank
  rw [carryRank_eq, carryRank_eq, approaches_append, List.getElem?_append_left hrank]

/-- Of a source around the target, the entry with the target in it counts as it stands at its turn. -/
theorem carryWithin_of_around {rest : Position} {tag : Tag} {front back : List Node} {entry : Element}
    (htarget : target = position ++ (elementsOf front).length :: rest)
    (howner : d.at? target = some owner)
    (helement : d.at? position = some ⟨tag, front ++ entry.toNode :: back⟩) :
    let source := front ++
      (entry.setAt rest (carry same owner.name front owner.children).children).toNode :: back
    d.carryWithin (some target) same (some position) =
      .ok (d.setChildren target (carry same owner.name source owner.children).children,
        carry same owner.name source owner.children) := by
  intro source
  have hlength : (elementsOf source).length =
      (⟨tag, front ++ entry.toNode :: back⟩ : Element).elements.length := by
    simp [source, Element.elements]
  refine carryWithin_eq howner helement hlength fun n =>
    ⟨⟨tag, front ++ (entry.setAt rest (carriedUpTo same owner source n).children).toNode :: back⟩, ?_, ?_⟩
  · rw [htarget, Document.at?_setChildren_append helement, Element.setAt_cons rfl]
  · by_cases hn : n = (elementsOf front).length
    · rw [hn, carriedUpTo_append]
    · exact carryRank_congr same owner.name back _ _ _ hn

/--
A section takes over exactly what it lacks of another one. If that is a section of another document, or one of
the same document which does not contain the target, it is unchanged. If it contains the target, the one entry
that is around the target is taken as it stands at its turn, with what was carried before it, and that entry
alone is changed, by what happens to the target.
-/
theorem carry_takes_exactly (howner : d.at? target = some owner) :
    (∀ source : Element, ∃ carried change,
      d.carry (some target) same (some source) = .ok (d.setChildren target change.children, change) ∧
        CarriesExactly same source.children owner.children carried change) ∧
    (∀ (position : Position) (source : Element), d.at? position = some source → ¬ position <+: target →
      ∃ carried change, d.carryWithin (some target) same (some position) =
          .ok (d.setChildren target change.children, change) ∧
        (d.setChildren target change.children).at? position = some source ∧
        CarriesExactly same source.children owner.children carried change) ∧
    ∀ (position rest : Position) (tag : Tag) (front : List Node) (entry : Element) (back : List Node),
      target = position ++ (elementsOf front).length :: rest →
      d.at? position = some ⟨tag, front ++ entry.toNode :: back⟩ →
        ∃ carried change, d.carryWithin (some target) same (some position) =
            .ok (d.setChildren target change.children, change) ∧
          (d.setChildren target change.children).at? position =
            some ⟨tag, front ++ (entry.setAt rest change.children).toNode :: back⟩ ∧
          CarriesExactly same
            (front ++ (entry.setAt rest (carry same owner.name front owner.children).children).toNode :: back)
            owner.children carried change := by
  refine ⟨fun source => ?_, fun position source hsource hapart => ?_, ?_⟩
  · exact ⟨_, _, Document.onSection_of_at? _ _ howner, carriesExactly_carry same owner.name _ _⟩
  · refine ⟨_, _, carryWithin_of_apart howner hsource hapart, ?_, carriesExactly_carry same owner.name _ _⟩
    exact Document.at?_setChildren_of_apart howner hsource hapart
      (elementsOf_carry same owner.name source.children owner.children)
  · intro position rest tag front entry back htarget hsource
    refine ⟨_, _, carryWithin_of_around htarget howner hsource, ?_, carriesExactly_carry same owner.name _ _⟩
    rw [htarget, Document.at?_setChildren_append hsource, Element.setAt_cons rfl]

end

/-- A section with a comment above an entry, and beside it one that has another entry. -/
def besides : Document :=
  { nodes := [(Element.ofName "project"
      [(Element.ofName "old" [.comment "why", .text " ", (Element.module "a").toNode,
        (Element.module "b").toNode]).toNode,
       (Element.ofName "new" [(Element.module "b").toNode, .text " "]).toNode]).toNode] }

/-- A section with two entries, the second of which is a section as well. -/
def nested : Document :=
  { nodes := [(Element.ofName "a" [(Element.ofName "x").toNode, (Element.ofName "b").toNode]).toNode] }

/--
The entry that is missing comes with its comment, in front of the white space at the end. In the other document
the outer section is carried into the inner one, which is its second entry.
-/
theorem carry_takes_exactly_besides :
    besides.at? [1] = some (.ofName "new" [(Element.module "b").toNode, .text " "]) ∧
      besides.at? [0] = some (.ofName "old" [.comment "why", .text " ", (Element.module "a").toNode,
        (Element.module "b").toNode]) ∧ ¬ ([0] : Position) <+: [1] ∧
      (∃ carried change, besides.carryWithin (some [1]) Identity.module.same (some [0]) =
          .ok (besides.setChildren [1] change.children, change) ∧
        change.children = [(Element.module "b").toNode, .comment "why", (Element.module "a").toNode, .text " "] ∧
        CarriesExactly Identity.module.same [.comment "why", .text " ", (Element.module "a").toNode,
          (Element.module "b").toNode] [(Element.module "b").toNode, .text " "] carried change) ∧
      nested.at? [1] = some (.ofName "b") ∧
      nested.at? [] = some (.ofName "a" [(Element.ofName "x").toNode, (Element.ofName "b").toNode]) ∧
      ∃ carried change, nested.carryWithin (some [1]) Identity.dependency.same (some []) =
          .ok (nested.setChildren [1] change.children, change) ∧
        CarriesExactly Identity.dependency.same
          [(Element.ofName "x").toNode, (Element.ofName "b" [(Element.ofName "x").toNode]).toNode] [] carried
          change := by
  have hnew : besides.at? [1] = some (.ofName "new" [(Element.module "b").toNode, .text " "]) := rfl
  have hold : besides.at? [0] = some (.ofName "old" [.comment "why", .text " ", (Element.module "a").toNode,
      (Element.module "b").toNode]) := rfl
  have hapart : ¬ ([0] : Position) <+: [1] := by decide
  obtain ⟨carried, change, hrun, -, hexactly⟩ :=
    (@carry_takes_exactly Identity.module.same _ _ _ hnew).2.1 [0] _ hold hapart
  have hchange : change.children =
      [(Element.module "b").toNode, .comment "why", (Element.module "a").toNode, .text " "] := by
    have hresult : besides.carryWithin (some [1]) Identity.module.same (some [0]) = .ok (_, _) := rfl
    exact congrArg (·.2.children) (Except.ok.inj (hrun.symm.trans hresult))
  have hinner : nested.at? [1] = some (.ofName "b") := rfl
  have houter : nested.at? [] =
      some (.ofName "a" [(Element.ofName "x").toNode, (Element.ofName "b").toNode]) := rfl
  obtain ⟨carried', change', hrun', -, hexactly'⟩ :=
    (@carry_takes_exactly Identity.dependency.same _ _ _ hinner).2.2 [] [] { name := "a" }
      [(Element.ofName "x").toNode] (.ofName "b") [] rfl houter
  exact ⟨hnew, hold, hapart, ⟨carried, change, hrun, hchange, hexactly⟩, hinner, houter, carried', change',
    hrun', hexactly'⟩

/-- The inner section takes over itself as well, with what it has taken over before. -/
theorem nested_not_exactly :
    nested.at? [1] = some (.ofName "b") ∧
      nested.at? [] = some (.ofName "a" [(Element.ofName "x").toNode, (Element.ofName "b").toNode]) ∧
      ∃ d change, nested.carryWithin (some [1]) Identity.dependency.same (some []) = .ok (d, change) ∧
        d.at? [] ≠ nested.at? [] ∧
        ∀ carried, ¬ CarriesExactly Identity.dependency.same
          [(Element.ofName "x").toNode, (Element.ofName "b").toNode] [] carried change := by
  refine ⟨rfl, rfl, _, _, rfl, fun h => ?_, fun carried h => ?_⟩
  · cases h
  · have hentries : (Element.ofName "b" [(Element.ofName "x").toNode]).toNode ∈
        nodesAt [(Element.ofName "x").toNode, (Element.ofName "b").toNode] carried := by
      rw [← h.entries_eq]
      exact List.mem_map_of_mem (.tail _ (.head _))
    obtain ⟨i, -, hi⟩ := List.mem_filterMap.mp hentries
    have hmem := List.mem_of_getElem? hi
    simp [Element.ofName, Element.toNode] at hmem

end Manifest
