import Manifest.Proofs.Identity
import Manifest.Proofs.Merge.Rerun

/-! Two contributors to one section. Each refreshes the section with entries of its own. If none of what
one of them adds or drops is the same as any of the other's, neither gets in the other's way: whichever
comes first, both add what they would add alone, and what belongs to neither of them stays as it is. -/

set_option autoImplicit false

namespace Manifest

/-! What a refresh does to the entries, and to what is no entry. -/

/-- The entries after a refresh are those that were kept, with the new ones in one block. -/
theorem exists_elements_refresh (r : Renewal) (owner : String) (children : List Node) :
    ∃ front back, front ++ back = (elementsOf children).filter (!r.unwanted ·) ∧
      elementsOf (refresh r owner children).children = front ++ (r.block children ++ back) := by
  refine ⟨elementsOf ((r.kept children).take (additionIndex r.anchor (r.kept children))),
    elementsOf ((r.kept children).drop (additionIndex r.anchor (r.kept children))), ?_, ?_⟩
  · rw [elementsOf_take_drop, Renewal.kept, elementsOf_removeFrom]
  · rw [children_refresh, elementsOf_withBlock, elementsOf_map_toNode]

/-- Comments, instructions and text that is not blank. -/
def Node.isRemainder (node : Node) : Bool :=
  !node.isElement && !node.isBlank

theorem filter_isRemainder_toNode (es : List Element) :
    (es.map Element.toNode).filter Node.isRemainder = [] := by
  rw [List.filter_eq_nil_iff]
  intro node hn
  obtain ⟨e, -, rfl⟩ := List.mem_map.mp hn
  simp [Node.isRemainder, Node.isElement, Element.toNode]

/-- A removal leaves all that is neither an entry nor blank as it is, and in order. -/
theorem filter_isRemainder_removeFrom (unwanted : Element → Bool) (owner : String) (children : List Node) :
    (removeFrom unwanted owner [] children).children.filter Node.isRemainder =
      children.filter Node.isRemainder := by
  have hentry : ∀ node : Node, node.element?.any unwanted = true → node.isRemainder = false := by
    intro node h
    cases node <;> first | rfl | cases h
  have hspec := congrArg (List.filter Node.isRemainder) (removeFrom_spec unwanted owner [] children).2
  have hblank : ∀ nodes : List Node, (nodes.filter (!·.isBlank)).filter Node.isRemainder =
      nodes.filter Node.isRemainder := by
    intro nodes
    rw [List.filter_filter]
    refine List.filter_congr fun node _ => ?_
    cases hb : node.isBlank <;> simp [Node.isRemainder, hb]
  rw [hblank, hblank, List.reverse_nil, List.nil_append, withoutEntries, List.filter_filter] at hspec
  rw [hspec]
  refine List.filter_congr fun node _ => ?_
  cases he : node.element?.any unwanted with
  | false => simp
  | true => simp [hentry node he]

/-- A refresh leaves all that is neither an entry nor blank as it is, and in order. -/
theorem filter_isRemainder_refresh (r : Renewal) (owner : String) (children : List Node) :
    (refresh r owner children).children.filter Node.isRemainder =
      children.filter Node.isRemainder := by
  rw [children_refresh, withBlock, List.filter_append, List.filter_append, filter_isRemainder_toNode,
    List.nil_append, ← List.filter_append, List.take_append_drop, Renewal.kept,
    filter_isRemainder_removeFrom]

/-! Contributors. -/

/-- What a contributor names: the entries that it adds, and those that it wants to be gone. -/
def Renewal.named (r : Renewal) : List Element :=
  r.stale ++ r.candidates

/-- A refresh that removes the entries that one identity takes for the same as those it names. -/
structure Renewal.GoesBy (r : Renewal) (identity : Identity) : Prop where
  same : r.same = identity.same
  removal : r.removal = none

namespace Renewal.GoesBy

variable {r : Renewal} {identity : Identity}

theorem unwanted_eq (h : r.GoesBy identity) (e : Element) :
    r.unwanted e = r.named.any (identity.same e ·) := by
  rw [Renewal.unwanted, h.removal, Option.getD_none, h.same, isNamed, List.any_cons, List.any_nil,
    Bool.or_false, Renewal.named]

/-- No entry that is kept is the same as a candidate, so which are added does not depend on them. -/
theorem block_eq (h : r.GoesBy identity) (children : List Node) :
    r.block children = newcomers identity.same id [] r.candidates := by
  rw [Renewal.block, h.same]
  refine newcomers_congr_any fun c hc => ?_
  rw [List.any_nil, List.any_eq_false]
  intro e he
  have hno := not_unwanted_of_mem_kept he
  rw [h.unwanted_eq, List.any_eq_false] at hno
  exact hno c (List.mem_append_right _ hc)

end Renewal.GoesBy

/-- The entries of a section that neither of two contributors names. -/
def others (a b : Renewal) (children : List Node) : List Element :=
  (elementsOf children).filter fun e => !a.unwanted e && !b.unwanted e

section
variable {identity : Identity} {a b : Renewal}

/-- A contributor does not remove what another one has added. -/
theorem not_unwanted_of_mem_block (ha : a.GoesBy identity) (hb : b.GoesBy identity)
    (hdisjoint : ∀ x ∈ a.named, ∀ y ∈ b.named, identity.same x y = false) {children : List Node}
    {e : Element} (he : e ∈ a.block children) : b.unwanted e = false := by
  rw [ha.block_eq] at he
  have hmem : e ∈ a.named := List.mem_append_right _ ((newcomers_sublist _ _).subset he)
  rw [hb.unwanted_eq, List.any_eq_false]
  exact fun y hy => by simp [hdisjoint e hmem y hy]

/--
After two contributors, one after the other, a section has the entries that belong to neither of them, in
the order that they had, and those that each of them adds alone.
-/
theorem elements_refresh_refresh (ha : a.GoesBy identity) (hb : b.GoesBy identity)
    (hdisjoint : ∀ x ∈ a.named, ∀ y ∈ b.named, identity.same x y = false) (owner : String)
    (children : List Node) :
    (others a b children).Sublist
        (elementsOf (refresh b owner (refresh a owner children).children).children) ∧
      (elementsOf (refresh b owner (refresh a owner children).children).children).Perm
        (others a b children ++ (a.block children ++ b.block children)) := by
  obtain ⟨front, back, hkept, helements⟩ := exists_elements_refresh a owner children
  obtain ⟨front', back', hkept', helements'⟩ :=
    exists_elements_refresh b owner (refresh a owner children).children
  have hblock : (a.block children).filter (!b.unwanted ·) = a.block children := by
    rw [List.filter_eq_self]
    intro e he
    rw [not_unwanted_of_mem_block ha hb hdisjoint he]
    rfl
  have hothers : others a b children =
      front.filter (!b.unwanted ·) ++ back.filter (!b.unwanted ·) := by
    rw [← List.filter_append, hkept, List.filter_filter, others]
    exact List.filter_congr fun e _ => Bool.and_comm _ _
  rw [helements, List.filter_append, List.filter_append, hblock] at hkept'
  have hsub : (others a b children).Sublist (front' ++ back') := by
    rw [hkept', hothers]
    exact List.Sublist.append_left (List.sublist_append_right _ _) _
  rw [helements', hb.block_eq, ← hb.block_eq children]
  refine ⟨hsub.trans (List.Sublist.append_left (List.sublist_append_right _ _) _), ?_⟩
  have hfront : (front' ++ back').Perm (others a b children ++ a.block children) := by
    rw [hkept', hothers, List.append_assoc]
    exact List.perm_append_comm.append_left _
  calc List.Perm (front' ++ (b.block children ++ back')) (front' ++ (back' ++ b.block children)) :=
        List.perm_append_comm.append_left _
    List.Perm _ ((others a b children ++ a.block children) ++ b.block children) := by
        rw [← List.append_assoc]
        exact hfront.append_right _
    List.Perm _ (others a b children ++ (a.block children ++ b.block children)) := by
        rw [List.append_assoc]

/--
Two contributors that name nothing in common can come in either order. The section has the same entries
then: those that belong to neither contributor, in the order that they had, and what each of them adds
when it is alone; and its comments, instructions and texts are what they were.
-/
theorem refresh_refresh_comm (hidentity : identity ∈ Identity.comparing) (ha : a.GoesBy identity)
    (hb : b.GoesBy identity) (hdisjoint : ∀ x ∈ a.named, ∀ y ∈ b.named, identity.same x y = false)
    (owner : String) (children : List Node) :
    let ab := (refresh b owner (refresh a owner children).children).children
    let ba := (refresh a owner (refresh b owner children).children).children
    let added := (refresh a owner children).added ++ (refresh b owner children).added
    (elementsOf ab).Perm (elementsOf ba) ∧
      (elementsOf ab).Perm (others a b children ++ added) ∧
      (others a b children).Sublist (elementsOf ab) ∧
      (others a b children).Sublist (elementsOf ba) ∧
      ab.filter Node.isRemainder = ba.filter Node.isRemainder ∧
      ab.filter Node.isRemainder = children.filter Node.isRemainder := by
  have hdisjoint' : ∀ y ∈ b.named, ∀ x ∈ a.named, identity.same y x = false := by
    intro y hy x hx
    rw [Identity.same_comm hidentity]
    exact hdisjoint x hx y hy
  have hothers : others b a children = others a b children :=
    List.filter_congr fun e _ => Bool.and_comm _ _
  obtain ⟨hsub, hperm⟩ := elements_refresh_refresh ha hb hdisjoint owner children
  obtain ⟨hsub', hperm'⟩ := elements_refresh_refresh hb ha hdisjoint' owner children
  rw [hothers] at hsub' hperm'
  intro ab ba added
  have hadded : added = a.block children ++ b.block children := by
    simp only [added, added_refresh]
  refine ⟨hperm.trans ((List.perm_append_comm.append_left _).trans hperm'.symm), ?_, hsub, hsub', ?_, ?_⟩
  · rw [hadded]
    exact hperm
  · simp only [ab, ba, filter_isRemainder_refresh]
  · simp only [ab, filter_isRemainder_refresh]

end

/-- A contributor of one dependency, placed behind another one, that drops a third. -/
def contributor (artifact anchor stale : String) : Renewal where
  candidates := [.dependency "g" artifact, .ofName "dependency"]
  same := Identity.dependency.same
  anchor := some (Anchor.holds ⟨none, some anchor⟩)
  stale := [.dependency "g" stale]

theorem refresh_refresh_comm_contributors :
    Identity.dependency ∈ Identity.comparing ∧ (contributor "a" "x" "y").GoesBy .dependency ∧
      (contributor "b" "a" "z").GoesBy .dependency ∧
      (∀ x ∈ (contributor "a" "x" "y").named, ∀ y ∈ (contributor "b" "a" "z").named,
        Identity.dependency.same x y = false) ∧
      (elementsOf (refresh (contributor "b" "a" "z") "dependencies"
        (refresh (contributor "a" "x" "y") "dependencies"
          [(Element.dependency "g" "x").toNode, .comment "c",
            (Element.dependency "g" "z").toNode]).children).children).Perm
      (elementsOf (refresh (contributor "a" "x" "y") "dependencies"
        (refresh (contributor "b" "a" "z") "dependencies"
          [(Element.dependency "g" "x").toNode, .comment "c",
            (Element.dependency "g" "z").toNode]).children).children) := by
  have hdisjoint : ∀ x ∈ (contributor "a" "x" "y").named, ∀ y ∈ (contributor "b" "a" "z").named,
      Identity.dependency.same x y = false := by
    decide +kernel
  have hmem : Identity.dependency ∈ Identity.comparing := by decide
  exact ⟨hmem, ⟨rfl, rfl⟩, ⟨rfl, rfl⟩, hdisjoint,
    (refresh_refresh_comm hmem ⟨rfl, rfl⟩ ⟨rfl, rfl⟩ hdisjoint _ _).1⟩

end Manifest
