import Manifest.Proofs.Merge.Sharing

/-! Two ways to add what a section lacks. The entries of another section can be carried over, or they can be
added as candidates without an anchor. Both take the same entries and leave the same ones; only the comments are
left out when entries are added. So the two do not agree if the other section contains this one, and comments
were carried before the turn of the entry that this one is in: that entry has these comments inside. -/

set_option autoImplicit false

namespace Manifest

/-! Comments above entries. -/

/-- No entry has a comment right above it. -/
def Uncommented (nodes : List Node) : Prop :=
  ∀ (i : Nat) (e : Element), nodes[i]? = some e.toNode → commentsAbove nodes i = []

theorem uncommented_iff {nodes : List Node} :
    Uncommented nodes ↔ ∀ x ∈ approaches [] nodes, leadingComments x.1 = [] := by
  constructor
  · intro h x hx
    obtain ⟨htake, hat⟩ := of_mem_approaches hx
    have hcomments := leadingComments_take nodes (Nat.le_of_lt (List.getElem?_eq_some_iff.mp hat).1)
    rw [htake, hcomments, h _ _ hat]
    rfl
  · intro h i e he
    have hcomments := leadingComments_take nodes (Nat.le_of_lt (List.getElem?_eq_some_iff.mp he).1)
    rw [h _ (exists_mem_approaches he), nodesAt, eq_comm, List.filterMap_eq_nil_iff] at hcomments
    rw [List.eq_nil_iff_forall_not_mem]
    intro j hj
    have hlt := (mem_commentsAbove hj).2.1
    rw [hcomments j hj] at hlt
    cases hlt

/-- Whether entries have comments above them does not depend on what is in one of them. -/
theorem uncommented_around {front back : List Node} {e : Element} :
    Uncommented (front ++ e.toNode :: back) ↔
      Uncommented front ∧ leadingComments front = [] ∧ Uncommented back := by
  rw [uncommented_iff, uncommented_iff, uncommented_iff, approaches_around]
  simp only [List.forall_mem_append, List.forall_mem_cons, List.forall_mem_map, leadingComments_behind]

/-! Some nodes as the source. -/

/-- Without an anchor the entries that are added come behind all others. -/
theorem elementsOf_addMissing (same : Match) (owner : String) (candidates : List Element)
    (children : List Node) :
    elementsOf (addMissing same none owner candidates children).children =
      elementsOf children ++ newcomers same id (elementsOf children) candidates := by
  rw [(addMissing_eq same none owner candidates children).2, additionIndex, Option.bind_none, Option.getD_none,
    elementsOf_withBlock_endPosition, elementsOf_map_toNode]

/--
That carrying entries over and adding them agree: on which ones, on the entries that the section has then, and
on all of its children if no comment is above an entry of the source.
-/
structure Agree (source : List Node) (carried added : Change) : Prop where
  entries_eq : carried.entries = added.entries
  elements_eq : elementsOf carried.children = elementsOf added.children
  children_eq : Uncommented source → carried.children = added.children

/-- If no carried entry has a comment above it, the section gets the same children. -/
theorem children_carry_eq {same : Match} (owner : String) {source children : List Node}
    (h : ∀ x ∈ carriedOf same source children, leadingComments x.1 = []) :
    (carry same owner source children).children =
      (addMissing same none owner (elementsOf source) children).children := by
  have hpieces : (carriedOf same source children).flatMap carriedPiece =
      ((carriedOf same source children).map Prod.snd).map Element.toNode := by
    rw [List.map_map, List.map_eq_flatMap]
    refine List.flatMap_congr fun x hx => ?_
    rw [carriedPiece, h x hx]
    rfl
  rw [(carry_eq same owner source children).2, (addMissing_eq same none owner (elementsOf source) children).2,
    hpieces, map_snd_carriedOf]
  rfl

theorem agree_carry_addMissing (same : Match) (owner : String) (source children : List Node) :
    Agree source (carry same owner source children)
      (addMissing same none owner (elementsOf source) children) where
  entries_eq := by
    rw [(carry_eq same owner source children).1, (addMissing_eq same none owner (elementsOf source) children).1,
      map_snd_carriedOf]
  elements_eq := by rw [elementsOf_carry, elementsOf_addMissing, map_snd_carriedOf]
  children_eq hnone :=
    children_carry_eq owner fun x hx => uncommented_iff.mp hnone x ((newcomers_sublist _ _).subset hx)

/-! A section of the same document as the source. -/

/-- A section after the first of some entries were added. -/
def addedUpTo (same : Match) (owner : Element) (entries : List Element) (n : Nat) : Addition :=
  (entries.take n).foldl (Addition.add same none owner.name) { children := owner.children }

section
variable {same : Match} {d : Document} {target position : Position} {owner : Element}

theorem addedUpTo_succ (same : Match) (owner : Element) {entries : List Element} {n : Nat} {entry : Element}
    (h : entries[n]? = some entry) :
    addedUpTo same owner entries (n + 1) =
      Addition.add same none owner.name (addedUpTo same owner entries n) entry := by
  rw [addedUpTo, List.take_add_one, h, List.foldl_append]
  rfl

/-- Entries come behind those that the section has. -/
theorem exists_elements_addedUpTo (same : Match) (owner : Element) (entries : List Element) (n : Nat) :
    ∃ more, elementsOf (addedUpTo same owner entries n).children = elementsOf owner.children ++ more := by
  exact ⟨_, elementsOf_addMissing same owner.name (entries.take n) owner.children⟩

/--
Adding from a section of the same document is adding some entries, if at each rank the section as it is found
then has the entry.
-/
theorem foldl_addRankWithin (howner : d.at? target = some owner) {entries : List Element}
    (hstage : ∀ n < entries.length, ∃ element,
      (d.setChildren target (addedUpTo same owner entries n).children).at? position = some element ∧
        element.elements[n]? = entries[n]?) {n : Nat} (hn : n ≤ entries.length) :
    (List.range n).foldl (Document.addRankWithin same target position) (d, { children := owner.children }) =
      (d.setChildren target (addedUpTo same owner entries n).children, addedUpTo same owner entries n) := by
  induction n with
  | zero => exact congrArg (·, _) (Document.setChildren_self howner).symm
  | succ n ih =>
    obtain ⟨element, helement, hentry⟩ := hstage n hn
    have hat : entries[n]? = some entries[n] := List.getElem?_eq_getElem hn
    rw [hat] at hentry
    rw [List.range_succ, List.foldl_append, ih (Nat.le_of_succ_le hn), List.foldl_cons, List.foldl_nil,
      Document.addRankWithin, Document.at?_setChildren _ howner, helement, Option.bind_some, hentry,
      addedUpTo_succ same owner hat]
    exact congrArg (·, _) (Document.setChildren_setChildren d target _ _)

theorem addWithin_eq (howner : d.at? target = some owner) {element : Element}
    (helement : d.at? position = some element) {entries : List Element}
    (hlength : entries.length = element.elements.length)
    (hstage : ∀ n < entries.length, ∃ element,
      (d.setChildren target (addedUpTo same owner entries n).children).at? position = some element ∧
        element.elements[n]? = entries[n]?) :
    d.addWithin (some target) same position =
      .ok (d.setChildren target (addMissing same none owner.name entries owner.children).children,
        addMissing same none owner.name entries owner.children) := by
  have hrun := foldl_addRankWithin howner hstage (Nat.le_refl _)
  have hall : (addedUpTo same owner entries entries.length).toChange =
      addMissing same none owner.name entries owner.children := by
    rw [addedUpTo, List.take_length]
    rfl
  rw [hlength] at hrun hall
  simp only [Document.addWithin, Option.bind_some, howner, helement, Option.map_some, Option.getD_some, hrun,
    hall]

/-- A section that does not contain the target has the same entries at every rank. -/
theorem addWithin_of_apart (howner : d.at? target = some owner) {element : Element}
    (helement : d.at? position = some element) (hapart : ¬ position <+: target) :
    d.addWithin (some target) same position =
      .ok (d.setChildren target (addMissing same none owner.name element.elements owner.children).children,
        addMissing same none owner.name element.elements owner.children) := by
  refine addWithin_eq howner helement rfl fun n _ => ⟨element, ?_, rfl⟩
  obtain ⟨more, hmore⟩ := exists_elements_addedUpTo same owner element.elements n
  exact Document.at?_setChildren_of_apart howner helement hapart hmore

/-- A source around the target as it stands after a change of the target, which is in one of its entries. -/
def sourceAfter (front : List Node) (entry : Element) (rest : Position) (back : List Node) (before : Change) :
    List Node :=
  front ++ (entry.setAt rest before.children).toNode :: back

/-- The other entries do not depend on one of them. -/
theorem getElem?_elementsOf_around {front : List Node} (back : List Node) (x y : Element) {n : Nat}
    (hn : n ≠ (elementsOf front).length) :
    (elementsOf (front ++ x.toNode :: back))[n]? = (elementsOf (front ++ y.toNode :: back))[n]? := by
  rw [elementsOf_append, elementsOf_append, elementsOf_toNode_cons, elementsOf_toNode_cons]
  rcases Nat.lt_or_gt_of_ne hn with hlt | hgt
  · rw [List.getElem?_append_left hlt, List.getElem?_append_left hlt]
  · obtain ⟨k, hk⟩ := Nat.exists_eq_add_of_lt hgt
    have hindex : n = (elementsOf front).length + (k + 1) := by omega
    rw [hindex, List.getElem?_append_right (Nat.le_add_right _ _),
      List.getElem?_append_right (Nat.le_add_right _ _), Nat.add_sub_cancel_left, List.getElem?_cons_succ,
      List.getElem?_cons_succ]

/-- Of a section around the target, the entry with the target in it counts as it stands at its turn. -/
theorem addWithin_of_around {rest : Position} {tag : Tag} {front back : List Node} {entry : Element}
    (htarget : target = position ++ (elementsOf front).length :: rest)
    (howner : d.at? target = some owner)
    (helement : d.at? position = some ⟨tag, front ++ entry.toNode :: back⟩) :
    let source := sourceAfter front entry rest back
      (addMissing same none owner.name (elementsOf front) owner.children)
    d.addWithin (some target) same position =
      .ok (d.setChildren target (addMissing same none owner.name (elementsOf source) owner.children).children,
        addMissing same none owner.name (elementsOf source) owner.children) := by
  intro source
  have hlength : (elementsOf source).length =
      (⟨tag, front ++ entry.toNode :: back⟩ : Element).elements.length := by
    simp [source, sourceAfter, Element.elements]
  refine addWithin_eq howner helement hlength fun n _ =>
    ⟨⟨tag, sourceAfter front entry rest back (addedUpTo same owner (elementsOf source) n).toChange⟩, ?_, ?_⟩
  · rw [htarget, Document.at?_setChildren_append helement, Element.setAt_cons rfl]
    rfl
  · by_cases hn : n = (elementsOf front).length
    · have hturn : (addedUpTo same owner (elementsOf source) n).children =
          (addMissing same none owner.name (elementsOf front) owner.children).children := by
        have hfront : (elementsOf source).take n = elementsOf front := by
          rw [hn]
          simp [source, sourceAfter]
        rw [addedUpTo, hfront]
        rfl
      rw [sourceAfter, hturn]
      rfl
    · exact getElem?_elementsOf_around back _ _ hn

/--
That carrying from a source around the target and adding from it agree, but for the one entry that the target is
in: up to its turn they agree, each of them takes it as it stands then, and besides that they do the same. If
no entry that is carried before its turn has a comment above it, they agree on the whole.
-/
structure AgreeAround (same : Match) (owner : Element) (front : List Node) (entry : Element) (rest : Position)
    (back : List Node) (carried added : Change) : Prop where
  before : Agree front (carry same owner.name front owner.children)
    (addMissing same none owner.name (elementsOf front) owner.children)
  as_carried : Agree (sourceAfter front entry rest back (carry same owner.name front owner.children)) carried
    (addMissing same none owner.name
      (elementsOf (sourceAfter front entry rest back (carry same owner.name front owner.children)))
      owner.children)
  as_added : Agree
    (sourceAfter front entry rest back (addMissing same none owner.name (elementsOf front) owner.children))
    (carry same owner.name
      (sourceAfter front entry rest back (addMissing same none owner.name (elementsOf front) owner.children))
      owner.children) added
  agree : (∀ x ∈ carriedOf same front owner.children, leadingComments x.1 = []) →
    Agree (front ++ entry.toNode :: back) carried added

theorem agreeAround (same : Match) (owner : Element) (front : List Node) (entry : Element) (rest : Position)
    (back : List Node) :
    AgreeAround same owner front entry rest back
      (carry same owner.name (sourceAfter front entry rest back (carry same owner.name front owner.children))
        owner.children)
      (addMissing same none owner.name
        (elementsOf (sourceAfter front entry rest back
          (addMissing same none owner.name (elementsOf front) owner.children))) owner.children) where
  before := agree_carry_addMissing same owner.name front owner.children
  as_carried := agree_carry_addMissing same owner.name _ owner.children
  as_added := agree_carry_addMissing same owner.name _ owner.children
  agree h := by
    have hsource : sourceAfter front entry rest back
        (addMissing same none owner.name (elementsOf front) owner.children) =
          sourceAfter front entry rest back (carry same owner.name front owner.children) := by
      rw [sourceAfter, sourceAfter, children_carry_eq owner.name h]
    have hagree := agree_carry_addMissing same owner.name
      (sourceAfter front entry rest back (carry same owner.name front owner.children)) owner.children
    rw [hsource]
    refine ⟨hagree.entries_eq, hagree.elements_eq, fun hnone => hagree.children_eq ?_⟩
    exact uncommented_around.mpr (uncommented_around.mp hnone)

/--
Carrying entries over and adding them agree, for a source in another document and for one in the same document
that does not contain the target. If the source contains the target, the entry that the target is in has inside
what was carried, or added, before its turn.
-/
theorem carry_agrees_with_addMissing (howner : d.at? target = some owner) :
    (∀ source : Element, ∃ carried added,
      d.carry (some target) same (some source) = .ok (d.setChildren target carried.children, carried) ∧
        d.addMissing (some target) same none source.elements =
          .ok (d.setChildren target added.children, added) ∧
        Agree source.children carried added) ∧
    (∀ (position : Position) (source : Element), d.at? position = some source → ¬ position <+: target →
      ∃ carried added, d.carryWithin (some target) same (some position) =
          .ok (d.setChildren target carried.children, carried) ∧
        d.addWithin (some target) same position = .ok (d.setChildren target added.children, added) ∧
        Agree source.children carried added) ∧
    ∀ (position rest : Position) (tag : Tag) (front : List Node) (entry : Element) (back : List Node),
      target = position ++ (elementsOf front).length :: rest →
      d.at? position = some ⟨tag, front ++ entry.toNode :: back⟩ →
        ∃ carried added, d.carryWithin (some target) same (some position) =
            .ok (d.setChildren target carried.children, carried) ∧
          d.addWithin (some target) same position = .ok (d.setChildren target added.children, added) ∧
          AgreeAround same owner front entry rest back carried added := by
  refine ⟨fun source => ?_, fun position source hsource hapart => ?_, ?_⟩
  · exact ⟨_, _, Document.onSection_of_at? _ _ howner, Document.onSection_of_at? _ _ howner,
      agree_carry_addMissing same owner.name source.children owner.children⟩
  · exact ⟨_, _, carryWithin_of_apart howner hsource hapart, addWithin_of_apart howner hsource hapart,
      agree_carry_addMissing same owner.name source.children owner.children⟩
  · intro position rest tag front entry back htarget hsource
    exact ⟨_, _, carryWithin_of_around htarget howner hsource, addWithin_of_around htarget howner hsource,
      agreeAround same owner front entry rest back⟩

end

/--
The missing entry is carried with its comment and added without it. The outer section of the other document is
carried into the inner one as it is added.
-/
theorem carry_agrees_with_addMissing_besides :
    besides.at? [1] = some (.ofName "new" [(Element.module "b").toNode, .text " "]) ∧
      besides.at? [0] = some (.ofName "old" [.comment "why", .text " ", (Element.module "a").toNode,
        (Element.module "b").toNode]) ∧ ¬ ([0] : Position) <+: [1] ∧
      (∃ carried added, besides.carryWithin (some [1]) Identity.module.same (some [0]) =
          .ok (besides.setChildren [1] carried.children, carried) ∧
        besides.addWithin (some [1]) Identity.module.same [0] =
          .ok (besides.setChildren [1] added.children, added) ∧
        carried.entries = [.module "a"] ∧ added.entries = [.module "a"]) ∧
      nested.at? [1] = some (.ofName "b") ∧
      nested.at? [] = some (.ofName "a" [(Element.ofName "x").toNode, (Element.ofName "b").toNode]) ∧
      ∃ carried added, nested.carryWithin (some [1]) Identity.dependency.same (some []) =
          .ok (nested.setChildren [1] carried.children, carried) ∧
        nested.addWithin (some [1]) Identity.dependency.same [] =
          .ok (nested.setChildren [1] added.children, added) ∧
        carried.children = added.children := by
  have hnew : besides.at? [1] = some (.ofName "new" [(Element.module "b").toNode, .text " "]) := rfl
  have hold : besides.at? [0] = some (.ofName "old" [.comment "why", .text " ", (Element.module "a").toNode,
      (Element.module "b").toNode]) := rfl
  have hapart : ¬ ([0] : Position) <+: [1] := by decide
  obtain ⟨carried, added, hcarried, hadded, hagree⟩ :=
    (@carry_agrees_with_addMissing Identity.module.same _ _ _ hnew).2.1 [0] _ hold hapart
  have hentries : carried.entries = [.module "a"] := by
    have hresult : besides.carryWithin (some [1]) Identity.module.same (some [0]) = .ok (_, _) := rfl
    exact congrArg (·.2.entries) (Except.ok.inj (hcarried.symm.trans hresult))
  have hinner : nested.at? [1] = some (.ofName "b") := rfl
  have houter : nested.at? [] =
      some (.ofName "a" [(Element.ofName "x").toNode, (Element.ofName "b").toNode]) := rfl
  obtain ⟨carried', added', hcarried', hadded', haround⟩ :=
    (@carry_agrees_with_addMissing Identity.dependency.same _ _ _ hinner).2.2 [] [] { name := "a" }
      [(Element.ofName "x").toNode] (.ofName "b") [] rfl houter
  have hnone : ∀ x ∈ carriedOf Identity.dependency.same [(Element.ofName "x").toNode] [],
      leadingComments x.1 = [] := by
    intro x hx
    cases List.mem_singleton.mp hx
    rfl
  have huncommented : Uncommented [(Element.ofName "x").toNode, (Element.ofName "b").toNode] :=
    uncommented_iff.mpr (List.forall_mem_cons.mpr ⟨rfl, List.forall_mem_cons.mpr ⟨rfl, nofun⟩⟩)
  exact ⟨hnew, hold, hapart, ⟨carried, added, hcarried, hadded, hentries, hagree.entries_eq ▸ hentries⟩, hinner,
    houter, carried', added', hcarried', hadded', (haround.agree hnone).children_eq huncommented⟩

/-- A section with a comment above an entry, and with another entry which is a section as well. -/
def commentedNested : Document :=
  { nodes := [(Element.ofName "a" [.comment "c", (Element.ofName "x").toNode,
      (Element.ofName "b").toNode]).toNode] }

/-- The inner section takes over itself with the comment inside, and adds itself without it. -/
theorem commentedNested_not_agree :
    commentedNested.at? [1] = some (.ofName "b") ∧
      commentedNested.at? [] = some (.ofName "a" [.comment "c", (Element.ofName "x").toNode,
        (Element.ofName "b").toNode]) ∧
      ∃ d₁ d₂ carried added,
        commentedNested.carryWithin (some [1]) Identity.dependency.same (some []) = .ok (d₁, carried) ∧
        commentedNested.addWithin (some [1]) Identity.dependency.same [] = .ok (d₂, added) ∧
        carried.entries ≠ added.entries ∧ elementsOf carried.children ≠ elementsOf added.children := by
  refine ⟨rfl, rfl, _, _, _, _, rfl, rfl, fun h => ?_, fun h => ?_⟩
  · cases congrArg (List.map fun e : Element => e.children.length) h
  · cases congrArg (List.map fun e : Element => e.children.length) h

end Manifest
