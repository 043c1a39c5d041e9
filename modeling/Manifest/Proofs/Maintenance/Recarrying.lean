import Manifest.Proofs.Maintenance.Grown
import Manifest.Proofs.Maintenance.Rereading
import Manifest.Proofs.Maintenance.Sections
import Manifest.Proofs.Xml.Exchange

/-! Carrying from a section that was carried into, written and read. The entries that were there before are
found again in it by their marks, and those that were carried are still new, so these are carried once more.
Each brings the comments that it brought, but the first one also those that the section ended with, as it
stands right below them now. -/

set_option autoImplicit false

namespace Manifest

open Xml (Exchangeable Markup isDocumentText qualify)

/-! Nodes that are the same one by one. -/

theorem Node.kinds_of_same {a b : Node} (h : a.same b = true) :
    a.isBlank = b.isBlank ∧ a.isComment = b.isComment ∧ a.isElement = b.isElement ∧
      (a.isComment = true → a = b) := by
  cases a <;> cases b <;>
    simp_all [Node.same, Node.isBlank, Node.isComment, Node.isElement]

theorem filter_of_sameNodes {a b : List Node} (h : sameNodes a b = true) :
    List.Forall₂ (fun x y : Node => x.same y = true) (a.filter (!·.isBlank)) (b.filter (!·.isBlank)) := by
  rw [← List.filterMap_eq_filter]
  refine forall₂_of_sameNodes (fun node hb => by simp [Option.guard, hb]) (fun x y hxy => ?_) h
  rw [Option.guard, Option.guard, (Node.kinds_of_same hxy).1]
  split
  · exact .some hxy
  · exact .none

section
variable {as bs : List Node} (h : List.Forall₂ (fun x y : Node => x.same y = true) as bs)
include h

theorem leadingComments_of_forall₂ : leadingComments as = leadingComments bs := by
  have hfront : ∀ {as bs : List Node}, List.Forall₂ (fun x y : Node => x.same y = true) as bs →
      (as.takeWhile fun node => node.isComment || node.isBlank).filter Node.isComment =
        (bs.takeWhile fun node => node.isComment || node.isBlank).filter Node.isComment := by
    intro as bs h
    induction h with
    | nil => rfl
    | @cons a b as bs hab _ ih =>
      obtain ⟨hblank, hcomment, -, heq⟩ := Node.kinds_of_same hab
      rw [List.takeWhile_cons, List.takeWhile_cons, hblank, hcomment]
      split
      · rw [List.filter_cons, List.filter_cons, hcomment, ih]
        split
        · next hb => rw [heq (hcomment.trans hb)]
        · rfl
      · rfl
  rw [leadingComments, leadingComments, hfront (List.forall₂_reverse_iff.mpr h)]

theorem elements_of_forall₂ :
    List.Forall₂ (fun x y : Element => x.toNode.same y.toNode = true) (elementsOf as) (elementsOf bs) := by
  refine List.rel_filterMap (fun x y hxy => ?_) h
  cases x <;> cases y <;> first | exact .none | exact .some hxy | simp [Node.same] at hxy

theorem IsCarried.of_forall₂ (hbs : IsCarried bs) : IsCarried as := by
  induction h with
  | nil => exact hbs
  | @cons a b as bs hab hrest ih =>
    obtain ⟨-, hcomment, helement, -⟩ := Node.kinds_of_same hab
    have hall := ih hbs.of_cons
    refine ⟨List.forall_mem_cons.mpr ⟨?_, hall.kinds⟩, fun node hn => ?_⟩
    · rw [hcomment, helement]
      exact hbs.kinds b List.mem_cons_self
    · cases hrest with
      | nil =>
        cases hn
        exact helement.trans (hbs.last b rfl)
      | cons _ _ => exact hall.last node (by rwa [List.getLast?_cons_cons] at hn)

end

/-! Nodes whose leaves are on one line. -/

namespace Maintainer

variable (m : Maintainer)

theorem kinds_settledNode (node : Node) :
    (m.settledNode node).isComment = node.isComment ∧ (m.settledNode node).isElement = node.isElement ∧
      (node.isComment = true → m.settledNode node = node) := by
  rw [settledNode]
  split
  · cases node with
    | element tag children =>
      rw [collapse_element]
      exact ⟨rfl, rfl, fun h => absurd h Bool.false_ne_true⟩
    | _ => exact ⟨rfl, rfl, fun _ => rfl⟩
  · exact ⟨rfl, rfl, fun _ => rfl⟩

theorem leadingComments_map_settledNode (nodes : List Node) :
    leadingComments (nodes.map m.settledNode) = leadingComments nodes := by
  induction nodes using List.reverseRec with
  | nil => rfl
  | append_singleton nodes node ih =>
    obtain ⟨hcomment, -, hself⟩ := m.kinds_settledNode node
    rw [List.map_append, List.map_singleton, leadingComments_concat, leadingComments_concat, hcomment,
      m.isBlank_settledNode, ih]
    split <;> split <;> simp_all

theorem elementsOf_settledChildren (children : List Node) :
    elementsOf (m.settledChildren children) = (elementsOf children).map m.settled := by
  have h := m.elements_settled ⟨{ name := "" }, children⟩
  rwa [settled_element] at h

end Maintainer

theorem IsCarried.not_isText {nodes : List Node} (h : IsCarried nodes) :
    ∀ node ∈ nodes, node.isText = false := by
  intro node hn
  rcases h.kinds node hn with hk | hk <;> cases node <;> first | rfl | cases hk

theorem IsCarried.map_settledNode {nodes : List Node} (h : IsCarried nodes) (m : Maintainer) :
    IsCarried (nodes.map m.settledNode) := by
  refine ⟨List.forall_mem_map.mpr fun node hn => ?_, fun node hn => ?_⟩
  · obtain ⟨hcomment, helement, -⟩ := m.kinds_settledNode node
    rw [hcomment, helement]
    exact h.kinds node hn
  · rw [List.getLast?_map] at hn
    obtain ⟨last, hlast, rfl⟩ := Option.map_eq_some_iff.mp hn
    exact (m.kinds_settledNode last).2.1.trans (h.last last hlast)

/-! Entries with the same marks. -/

namespace Identity

variable {identity : Identity}

theorem any_same_of_marks {present present' : List Element} {c c' : Element}
    (hpresent : present.map identity.marks = present'.map identity.marks)
    (hc : identity.marks c = identity.marks c') :
    present.any (identity.same · c) = present'.any (identity.same · c') := by
  induction present generalizing present' with
  | nil =>
    rw [List.map_nil, eq_comm, List.map_eq_nil_iff] at hpresent
    rw [hpresent]
    rfl
  | cons e present ih =>
    cases present' with
    | nil => cases hpresent
    | cons e' present' =>
      rw [List.map_cons, List.map_cons, List.cons.injEq] at hpresent
      rw [List.any_cons, List.any_cons, same_congr hpresent.1 hc, ih hpresent.2]

/-- Which entries are new can be told from the marks. -/
theorem map_marks_newcomers {present present' entries entries' : List Element}
    (hpresent : present.map identity.marks = present'.map identity.marks)
    (hentries : entries.map identity.marks = entries'.map identity.marks) :
    (newcomers identity.same id present entries).map identity.marks =
      (newcomers identity.same id present' entries').map identity.marks := by
  induction entries generalizing entries' present present' with
  | nil =>
    rw [List.map_nil, eq_comm, List.map_eq_nil_iff] at hentries
    rw [hentries]
    rfl
  | cons e entries ih =>
    cases entries' with
    | nil => cases hentries
    | cons e' entries' =>
      rw [List.map_cons, List.map_cons, List.cons.injEq] at hentries
      rw [newcomers_cons, newcomers_cons, id, id, any_same_of_marks hpresent hentries.1]
      split
      · exact ih hpresent hentries.2
      · rw [List.map_cons, List.map_cons, hentries.1]
        refine congrArg _ (ih ?_ hentries.2)
        rw [List.map_append, List.map_append, hpresent, List.map_singleton, List.map_singleton, hentries.1]

/-- Entries that were new stay new when only their marks are kept. -/
theorem newcomers_of_marks {present entries entries' : List Element}
    (hnew : newcomers identity.same id present entries = entries)
    (hentries : entries'.map identity.marks = entries.map identity.marks) :
    newcomers identity.same id present entries' = entries' := by
  refine (newcomers_sublist present entries').eq_of_length ?_
  have hlength := congrArg List.length (@map_marks_newcomers _ present present _ _ rfl hentries)
  rw [List.length_map, List.length_map, hnew] at hlength
  rw [hlength, ← List.length_map identity.marks, ← hentries, List.length_map]

end Identity

theorem newcomers_newcomers {same : Match} (present entries : List Element) :
    newcomers same id present (newcomers same id present entries) = newcomers same id present entries :=
  newcomers_eq_self (fun _ he _ hc => not_same_of_mem_newcomers hc he) (newcomers_pairwise present entries)

/-! A section that was carried into, and what is the same. -/

section
variable {m : Maintainer} {identity : Identity} {source own read : List Node}

/-- A block keeps a section from being a leaf. -/
theorem collapsedLeaf?_carriedInto {same : Match} (hne : carriedBlock same source own ≠ []) :
    collapsedLeaf? (carriedInto same source own) = none := by
  obtain ⟨front, last, hblock⟩ := List.eq_nil_or_concat _ |>.resolve_left hne
  rw [List.concat_eq_append] at hblock
  have helement := (isCarried_carriedBlock same source own).last last
    (by rw [hblock, List.getLast?_concat]; rfl)
  cases last with
  | element tag children =>
    rw [carriedInto, hblock, withBlock, List.append_assoc, ← List.append_assoc]
    exact collapsedLeaf?_append _ _ ⟨tag, children⟩
  | _ => cases helement

/-- But for white space, a section with a block in it is what it was, and the block. -/
theorem filter_settledChildren_carriedInto {same : Match} (hne : carriedBlock same source own ≠ []) :
    (m.settledChildren (carriedInto same source own)).filter (!·.isBlank) =
      ((own.filter (!·.isBlank)).map m.settledNode) ++ (carriedBlock same source own).map m.settledNode := by
  have hblank : (own.drop (endPosition own)).filter (!·.isBlank) = [] :=
    List.filter_eq_nil_iff.mpr fun n hn => by simp [isBlank_of_mem_drop_endPosition hn]
  have hown : (own.take (endPosition own)).filter (!·.isBlank) = own.filter (!·.isBlank) := by
    rw [← List.append_nil ((own.take (endPosition own)).filter _), ← hblank, ← List.filter_append,
      List.take_append_drop]
  rw [m.settledChildren_of_no_leaf (collapsedLeaf?_carriedInto hne), Maintainer.filter_map_settledNode,
    carriedInto, withBlock, List.filter_append, List.filter_append, hown, hblank,
    (isCarried_carriedBlock same source own).filter_eq_self, List.append_nil, List.map_append]

theorem elementsOf_filter_isBlank (nodes : List Node) :
    elementsOf (nodes.filter (!·.isBlank)) = elementsOf nodes := by
  rw [elementsOf, elementsOf, List.filterMap_filter]
  refine List.filterMap_congr fun node _ => ?_
  cases node <;> simp [Node.isBlank, Node.element?]

theorem elementsOf_carriedInto (same : Match) (source own : List Node) :
    elementsOf (carriedInto same source own) =
      elementsOf own ++ newcomers same id (elementsOf own) (elementsOf source) := by
  rw [carriedInto, elementsOf_withBlock_endPosition, elementsOf_carriedBlock]

/--
What is carried from a section that was carried into and that is read with its texts in one piece: the block,
as it is read. If the section ended with comments of its own they are carried with it.
-/
theorem exists_carriedBlock_again (hself : ∀ e ∈ elementsOf own, identity.same e e = true)
    (hlegible : ∀ e ∈ elementsOf (carriedInto identity.same source own),
      identity.isLegible (m.settled e) = true)
    (hsame : sameNodes read (m.settledChildren (carriedInto identity.same source own)) = true) :
    ∃ front block, read.filter (!·.isBlank) = front ++ block ∧
      List.Forall₂ (fun x y : Node => x.same y = true) block
        ((carriedBlock identity.same source own).map m.settledNode) ∧
      carriedBlock identity.same read own =
        if carriedBlock identity.same source own = [] then [] else leadingComments own ++ block := by
  have hmarks := Identity.map_marks_of_same (elements_of_sameNodes hsame) (by
    rw [m.elementsOf_settledChildren]
    exact List.forall_mem_map.mpr hlegible)
  rw [m.elementsOf_settledChildren, List.map_map, identity.marks_comp_settled, elementsOf_carriedInto,
    ← elementsOf_carriedBlock, List.map_append] at hmarks
  have hfound : ∀ es : List Element, es.map identity.marks = (elementsOf own).map identity.marks →
      ∀ e ∈ es, (elementsOf own).any (identity.same · e) = true := by
    intro es hes e he
    obtain ⟨a, ha, hmark⟩ := List.mem_map.mp (hes ▸ List.mem_map_of_mem he : identity.marks e ∈ _)
    exact List.any_eq_true.mpr ⟨a, ha, (Identity.same_congr rfl hmark).symm.trans (hself a ha)⟩
  by_cases hne : carriedBlock identity.same source own = []
  · rw [hne, elementsOf_nil, List.map_nil, List.append_nil] at hmarks
    have hnone := IsCarried.nil.carriedBlock_eq (List.append_nil _).symm
      (fun e he => hfound _ hmarks e (by rwa [elementsOf_filter_isBlank] at he)) rfl
    exact ⟨_, [], (List.append_nil _).symm, by rw [hne]; exact .nil, by rw [if_pos hne, hnone, if_pos rfl]⟩
  · have hall := filter_of_sameNodes hsame
    rw [filter_settledChildren_carriedInto hne] at hall
    have hfront := List.forall₂_take_append _ _ _ hall
    have hblock := List.forall₂_drop_append _ _ _ hall
    have hsplit := List.take_append_drop ((own.filter (!·.isBlank)).map m.settledNode).length
      (read.filter (!·.isBlank))
    generalize (read.filter (!·.isBlank)).take _ = front at hfront hsplit
    generalize (read.filter (!·.isBlank)).drop _ = block at hblock hsplit
    -- the entries in front are the section's own, those in the block are new
    have hlength := (elements_of_forall₂ hfront).length_eq
    rw [m.elementsOf_map_settledNode, elementsOf_filter_isBlank, List.length_map] at hlength
    rw [← elementsOf_filter_isBlank, ← hsplit, elementsOf_append, List.map_append] at hmarks
    obtain ⟨hown, hnew⟩ := List.append_inj hmarks (by rw [List.length_map, List.length_map, hlength])
    have hstay : newcomers identity.same id (elementsOf own)
        (elementsOf (carriedBlock identity.same source own)) =
          elementsOf (carriedBlock identity.same source own) := by
      rw [elementsOf_carriedBlock, newcomers_newcomers]
    have hcarried := IsCarried.of_forall₂ hblock
      ((isCarried_carriedBlock identity.same source own).map_settledNode m)
    have hagain := hcarried.carriedBlock_eq hsplit.symm (hfound _ hown)
      (Identity.newcomers_of_marks hstay hnew)
    have hcomments : leadingComments front = leadingComments own := by
      rw [leadingComments_of_forall₂ hfront, m.leadingComments_map_settledNode, leadingComments_filter]
    have hblock' : block ≠ [] := by
      rintro rfl
      exact hne (List.map_eq_nil_iff.mp (List.forall₂_nil_left_iff.mp hblock))
    exact ⟨front, block, hsplit.symm, hblock, by rw [hagain, hcomments, if_neg hblock', if_neg hne]⟩

/-- If the section stays as it is when it is carried into once more, nothing was carried behind comments. -/
theorem leadingComments_eq_nil_of_same (hself : ∀ e ∈ elementsOf own, identity.same e e = true)
    (hlegible : ∀ e ∈ elementsOf (carriedInto identity.same source own),
      identity.isLegible (m.settled e) = true)
    (hsame : sameNodes read (m.settledChildren (carriedInto identity.same source own)) = true)
    (hagain : sameNodes read (m.settledChildren (carriedInto identity.same read own)) = true) :
    carriedBlock identity.same source own = [] ∨ leadingComments own = [] := by
  obtain ⟨front, block, -, hblock, hcarried⟩ := exists_carriedBlock_again hself hlegible hsame
  by_cases hne : carriedBlock identity.same source own = []
  · exact Or.inl hne
  rw [if_neg hne] at hcarried
  have hlength := hblock.length_eq
  rw [List.length_map] at hlength
  have hne' : carriedBlock identity.same read own ≠ [] := by
    rw [hcarried]
    intro hnil
    rw [(List.append_eq_nil_iff.mp hnil).2] at hlength
    exact hne (List.length_eq_zero_iff.mp hlength.symm)
  -- both times there are as many nodes besides white space
  have hfirst := (filter_of_sameNodes hsame).length_eq
  have hsecond := (filter_of_sameNodes hagain).length_eq
  rw [filter_settledChildren_carriedInto hne, List.length_append, List.length_map, List.length_map] at hfirst
  rw [filter_settledChildren_carriedInto hne', hcarried, List.length_append, List.length_map, List.length_map,
    List.length_append] at hsecond
  exact Or.inr (List.length_eq_zero_iff.mp (by omega))

/-! Sections of a document that was written and read. -/

/-- How a settled root is written, without any prefix being made up, and read. -/
structure Maintainer.Rereads (m : Maintainer) (unit : String) (root read : Element) (markup : Markup) :
    Prop where
  known : root.toNode.known []
  settled : root.toNode.settled [] none 0 = true
  written : qualify [] none 0 root.toNode = some (markup, 0)
  resolved : (markup.indent unit 1).resolve [] = read.toNode
  same : read.toNode.same root.toNode = true
  fixed : m.settled read = read

theorem carriedInto_of_carriedBlock_eq_nil {same : Match} (h : carriedBlock same source own = []) :
    carriedInto same source own = own := by
  rw [carriedInto, h, withBlock_nil]

/--
What a section grows to when its entries are carried into what it grew from can take the place of what it is,
unless something is carried behind comments.
-/
theorem Maintainer.Rereads.exists_exchangeable {unit : String} {root e o : Element} {markup : Markup}
    (h : m.Rereads unit root e markup) (hwhite : Markup.isWhite unit = true)
    (htext : isDocumentText unit = true) {path : List String} (ho : root.descend path = some o)
    (hself : ∀ e ∈ elementsOf own, identity.same e e = true)
    (hgrown : o.children = m.settledChildren (carriedInto identity.same source own))
    (hlegible : ∀ e ∈ o.elements, identity.isLegible e = true)
    (hcomments : carriedBlock identity.same source own = [] ∨ leadingComments own = []) :
    ∃ o', e.descend path = some o' ∧
      Exchangeable root path (m.settledChildren (carriedInto identity.same o'.children own)) := by
  obtain ⟨-, hlocate⟩ := Element.element_ensure_of_descend ho
  have hat := (Element.at?_of_locate hlocate).trans ho
  have hsettled := h.settled
  have hwritten := h.written
  rw [← Element.setAt_self hat] at hsettled hwritten
  obtain ⟨spot, e', he', hspot, hnext⟩ :=
    Xml.exists_spot hwhite htext hat Xml.Site.top h.known hsettled hwritten 1
  obtain rfl := toNode_injective (he'.symm.trans h.resolved)
  obtain ⟨hzero, hmarkup, hsite⟩ := hnext rfl
  obtain ⟨o', hato, -, hread⟩ := hspot.read
  have ho' : e'.descend path = some o' := by
    rw [← Element.at?_of_locate ((Element.locate_of_same h.same path).trans hlocate), hato]
  have hsameNodes : sameNodes o'.children o.children = true := by
    have hrel := Element.descend_of_same h.same path
    rw [ho', ho] at hrel
    cases hrel with
    | some hsame => exact Element.sameNodes_of_same hsame
  rw [hgrown] at hsameNodes
  rw [Element.elements, hgrown, m.elementsOf_settledChildren] at hlegible
  obtain ⟨front, block, hfilter, hblock, hagain⟩ :=
    exists_carriedBlock_again hself (List.forall_mem_map.mp hlegible) hsameNodes
  refine ⟨o', ho', o, spot.scope, spot.parent, spot.markup, ?_⟩
  by_cases hne : carriedBlock identity.same source own = []
  · rw [if_pos hne] at hagain
    rw [carriedInto_of_carriedBlock_eq_nil hagain, ← carriedInto_of_carriedBlock_eq_nil hne, ← hgrown]
    exact ⟨_, ho, hsite path hlocate, hmarkup, hmarkup, rfl⟩
  · have htail := hcomments.resolve_left hne
    rw [if_neg hne, htail, List.nil_append] at hagain
    -- how the block is written, and what is read of it
    have hcarried := (isCarried_carriedBlock identity.same source own).map_settledNode m
    rw [m.settledChildren_of_no_leaf (collapsedLeaf?_carriedInto hne), carriedInto, withBlock,
      List.map_append, List.map_append] at hgrown
    have hknown := hspot.known
    have hsettledAll := hspot.settled
    rw [hgrown] at hknown hsettledAll hmarkup
    rw [hzero] at hsettledAll
    obtain ⟨front', block', ms, hfilter', hlength, hms, hbare⟩ := hspot.site.exists_block hwhite htext
      (knownAll_append.mp (knownAll_append.mp hknown).2).1 hsettledAll (by simpa using hne)
      hcarried.not_isText (List.forall_mem_map.mpr fun node hn =>
        (m.isBlank_settledNode node).trans (isBlank_of_mem_drop_endPosition hn)) hmarkup spot.level
    rw [← hread, hfilter] at hfilter'
    obtain ⟨-, rfl⟩ := List.append_inj' hfilter' (by rw [hlength, hblock.length_eq])
    -- leaves are on one line already
    have hfixed : block.map m.settledNode = block := by
      refine (List.map_congr_left fun node hn => ?_).trans (List.map_id' block)
      refine Maintainer.settledNode_of_mem (Maintainer.settled_of_at? hato h.fixed) node ?_
      exact List.mem_of_mem_filter (hfilter ▸ List.mem_append_right front hn)
    have hne' : carriedBlock identity.same o'.children own ≠ [] := by
      rw [hagain]
      rintro rfl
      exact hne (List.map_eq_nil_iff.mp (List.forall₂_nil_left_iff.mp hblock))
    rw [m.settledChildren_of_no_leaf (collapsedLeaf?_carriedInto hne'), carriedInto, withBlock, hagain,
      List.map_append, List.map_append, hfixed]
    exact ⟨_, ho, hsite path hlocate, by rwa [hgrown], hms, hbare⟩

end

end Manifest
