import Manifest.Proofs.Maintenance.Refreshing
import Manifest.Proofs.Maintenance.Resettling
import Manifest.Proofs.Xml.Around

/-! Refreshing a section of a document that was written and read. What was added is found again by its marks,
it is put back between the nodes that stood around it, and what is written for the whole is what was
written before but for white space. -/

set_option autoImplicit false

namespace Manifest

open Xml (Markup Scope Spot isDocumentText qualify)

/-- Elements that are the same have the same elements at each position, or none. -/
theorem Element.at?_of_same {x y : Element} (h : x.toNode.same y.toNode = true) (position : Position) :
    Option.Rel (fun a b : Element => a.toNode.same b.toNode = true) (x.at? position)
      (y.at? position) := by
  induction position generalizing x y with
  | nil => exact .some h
  | cons rank rest ih =>
    have helements := elements_of_sameNodes (sameNodes_of_same h)
    have hchild : Option.Rel (fun a b : Element => a.toNode.same b.toNode = true)
        (x.elements[rank]?) (y.elements[rank]?) := by
      rw [elements, elements]
      generalize elementsOf x.children = xs at helements ⊢
      generalize elementsOf y.children = ys at helements ⊢
      induction helements generalizing rank with
      | nil => exact .none
      | cons hab _ ihxs =>
        cases rank with
        | zero => exact .some hab
        | succ rank => exact ihxs rank
    rw [at?, at?]
    cases hx : x.elements[rank]? <;> cases hy : y.elements[rank]? <;> rw [hx, hy] at hchild <;>
      cases hchild
    · exact .none
    · next hab => exact ih hab

namespace Identity

theorem marks_settled (m : Maintainer) (identity : Identity) (e : Element) :
    identity.marks (m.settled e) = identity.marks e := by
  rw [Maintainer.settled]
  split
  · exact identity.marks_collapse e
  · rfl

theorem marks_comp_settled (m : Maintainer) (identity : Identity) :
    identity.marks ∘ m.settled = identity.marks :=
  funext fun e => identity.marks_settled m e

/-- Entries that are the same one by one have the same marks, if their texts are in one piece. -/
theorem map_marks_of_same {identity : Identity} {as bs : List Element}
    (h : List.Forall₂ (fun a b : Element => a.toNode.same b.toNode = true) as bs)
    (hlegible : ∀ b ∈ bs, identity.isLegible b = true) :
    as.map identity.marks = bs.map identity.marks := by
  induction h with
  | nil => rfl
  | cons hab _ ih =>
    obtain ⟨hb, hbs⟩ := List.forall_mem_cons.mp hlegible
    rw [List.map_cons, List.map_cons, marks_of_same hab hb, ih hbs]

end Identity

/-! A section as it is written. -/

section
variable (m : Maintainer) (r : Renewal) (owner : String) (children : List Node)

theorem map_settledNode_toNode (block : List Element) :
    (block.map Element.toNode).map m.settledNode = (block.map m.settled).map Element.toNode := by
  rw [List.map_map, List.map_map]
  exact List.map_congr_left fun e _ => (m.toNode_settled e).symm

variable {r children}

/-- Entries keep a section from being a leaf. -/
theorem collapsedLeaf?_append_elements (front : List Node) {block : List Element} (hne : block ≠ [])
    (back : List Node) : collapsedLeaf? (front ++ (block.map Element.toNode ++ back)) = none := by
  obtain ⟨e, block, rfl⟩ := List.exists_cons_of_ne_nil hne
  exact collapsedLeaf?_append _ _ e

theorem collapsedLeaf?_refresh (hne : r.block children ≠ []) :
    collapsedLeaf? (refresh r owner children).children = none := by
  rw [r.children_eq]
  exact collapsedLeaf?_append_elements _ hne _

/-- No text of what stood around the entries is joined with another one across them. -/
theorem joinTexts_refresh (hne : r.block children ≠ []) :
    joinTexts ((refresh r owner children).children.map m.settledNode) =
      joinTexts ((r.front children).map m.settledNode) ++
        (((r.block children).map m.settled).map Element.toNode ++
          joinTexts ((r.back children).map m.settledNode)) := by
  rw [r.children_eq, List.map_append, List.map_append, map_settledNode_toNode,
    joinTexts_append_elements _ (by simpa using hne)]

end

namespace Maintainer

variable {m : Maintainer}

/-- A settled tree with settled nodes at a position, the texts among them joined, is settled. -/
theorem settled_setAt_joined {x o : Element} {position : Position} (hat : x.at? position = some o)
    {children : List Node} (hleaf : collapsedLeaf? (joinTexts (children.map m.settledNode)) = none) :
    m.settled ((m.settled x).setAt position (joinTexts (children.map m.settledNode))) =
      (m.settled x).setAt position (joinTexts (children.map m.settledNode)) := by
  have hat' := m.at?_settled position x
  rw [hat, Option.map_some] at hat'
  rw [m.settled_setAt hat' hleaf, settled_settled,
    map_joinTexts m.settledNode_text m.isText_settledNode, List.map_map]
  congr 2
  exact List.map_congr_left fun node _ => m.settledNode_settledNode node

end Maintainer

/-! A section as it is read. -/

/-- What is read of a refreshed section has the entries that were kept around those that were added. -/
theorem Renewal.rereads_of_relaid {m : Maintainer} {r : Renewal} {identity : Identity}
    {owner : String} {children front back : List Node} {spot : Spot} {unit : String}
    {lead : Option Node} {gap : Node} {es : List Element}
    (h : spot.Relaid unit (joinTexts ((r.front children).map m.settledNode))
      ((r.block children).map m.settled) (joinTexts ((r.back children).map m.settledNode)) front lead
      gap es back)
    (hmarks : (elementsOf (front ++ (lead.toList ++ (spread gap es ++ back)))).map identity.marks =
      (elementsOf (refresh r owner children).children).map identity.marks) :
    r.Rereads identity children front lead gap es back := by
  have hlead : elementsOf lead.toList = [] :=
    elementsOf_eq_nil_of_blank fun n hn => h.leadBlank n (Option.mem_toList.mp hn)
  simp only [r.children_eq, elementsOf_append, hlead, elementsOf_spread h.gapBlank, List.nil_append,
    elementsOf_map_toNode, List.map_append] at hmarks
  have hlength := h.lengthFront
  rw [elementsOf_joinTexts, m.elementsOf_map_settledNode, List.length_map] at hlength
  obtain ⟨hfront, hrest⟩ := List.append_inj hmarks (by rw [List.length_map, List.length_map, hlength])
  obtain ⟨hblock, hback⟩ := List.append_inj hrest
    (by rw [List.length_map, List.length_map, h.lengthBlock, List.length_map])
  refine ⟨hfront, hblock, hback, h.last, fun x hx => h.anchored (m.settled x) ?_, fun hblank =>
    h.blank (isBlank_joinTexts fun node hn => ?_), h.leadBlank, h.gapBlank⟩
  · obtain ⟨before, hbefore⟩ := List.getLast?_eq_some_iff.mp hx
    rw [hbefore, List.map_append, List.map_singleton, ← m.toNode_settled]
    exact getLast?_joinTexts_node _ rfl
  · obtain ⟨node, hmem, rfl⟩ := List.mem_map.mp hn
    exact (m.isBlank_settledNode node).trans (hblank node hmem)

/--
A refresh whose candidates can be put into any document: they could have been read as documents of their
own, and name no namespaces.
-/
structure Renewal.Portable (r : Renewal) : Prop where
  known : ∀ c ∈ r.candidates, c.toNode.known []
  isLocal : ∀ c ∈ r.candidates, c.toNode.isLocal = true

theorem Renewal.Portable.ordinary {r : Renewal} (h : r.Portable) :
    ∀ c ∈ r.candidates, c.toNode.ordinary :=
  fun c hc => Xml.ordinary_of_known _ (h.known c hc)

theorem Maintainer.isLocal_settled (m : Maintainer) {e : Element} (h : e.toNode.isLocal = true) :
    (m.settled e).toNode.isLocal = true := by
  rw [toNode_settled, settledNode]
  split
  · exact e.toNode.isLocal_collapse h
  · exact h

/-- A tree with a refreshed section, settled and with its texts joined, could have been read. -/
theorem Renewal.Portable.ordinary_setAt {m : Maintainer} {r : Renewal} (hportable : r.Portable)
    {x o : Element} {position : Position} (hat : x.at? position = some o) (hx : x.toNode.ordinary) :
    ((m.settled x).setAt position
      (joinTexts ((refresh r o.name o.children).children.map m.settledNode))).toNode.ordinary := by
  refine shape_ordinary.setAt (m.ordinary_settled hx) (apart_joinTexts _) (ordinaries_iff.mp
    (ordinaries_joinTexts (ordinaries_iff.mpr (List.forall_mem_map.mpr fun node hn => ?_))))
  have hnode := ordinaries_iff.mp (ordinaries_refresh o.name (shape_ordinary.at? hat hx).2.2
    hportable.ordinary) node hn
  rw [Maintainer.settledNode]
  split
  · exact shape_ordinary.node_collapse node hnode
  · exact hnode

/--
A section is refreshed, the document is written and read, and the section is refreshed again. What is
written for the document then is what was written before, but for white space.
-/
theorem Renewal.exists_refresh_again {m : Maintainer} {r : Renewal} {identity : Identity}
    {anchor : Option Anchor} (hr : r.Regular identity anchor) (hportable : r.Portable)
    (hne : r.candidates ≠ []) {unit : String} (hwhite : Markup.isWhite unit = true)
    (htext : isDocumentText unit = true) {x o : Element} {position : Position}
    (hat : x.at? position = some o) (hx : x.toNode.known []) {mk : Markup} {next : Nat}
    (hmk : qualify [] none 0
      (m.settled (x.setAt position (refresh r o.name o.children).children)).toNode = some (mk, next))
    (hsettled : (m.settled (x.setAt position (refresh r o.name o.children).children)).toNode.settled []
      none 0 = true)
    (hlegible : ∀ e ∈ elementsOf (refresh r o.name o.children).children,
      identity.isLegible (m.settled e) = true) {e : Element}
    (he : (mk.indent unit 1).resolve [] = e.toNode)
    (hsame : e.toNode.same ((m.settled x).setAt position
      (joinTexts ((refresh r o.name o.children).children.map m.settledNode))).toNode = true) :
    ∃ o' mk', e.at? position = some o' ∧ o'.name = o.name ∧ mk'.bare = mk.bare ∧
      ∀ k, qualify [] none k
        (m.settled (e.setAt position (refresh r o'.name o'.children).children)).toNode = some (mk', k) := by
  have hblock := @Regular.block_ne_nil _ _ _ o.children hr hne
  have hat' := m.at?_settled position x
  rw [hat, Option.map_some] at hat'
  -- what is written is what is written with the texts joined
  have halike := (alikeAll_joinTexts
    ((refresh r o.name o.children).children.map m.settledNode)).setAt hat' [] none 0
  rw [m.settled_setAt hat (collapsedLeaf?_refresh o.name hblock)] at hmk hsettled
  rw [← halike.1] at hmk
  rw [← halike.2] at hsettled
  obtain ⟨spot, e', he', hspot, -⟩ :=
    Xml.exists_spot hwhite htext hat' Xml.Site.top (Maintainer.known_settled hx) hsettled hmk 1
  obtain rfl := toNode_injective (he'.symm.trans he)
  have hjoined := joinTexts_refresh m o.name hblock
  have hkept : ∀ nodes : List Node, (∀ node ∈ nodes, node ∈ r.kept o.children) →
      knownAll spot.origin (joinTexts (nodes.map m.settledNode)) := by
    refine fun nodes hnodes => knownAll_joinTexts (knownAll_iff.mpr ?_)
    exact List.forall_mem_map.mpr fun node hn =>
      Maintainer.known_settledNode hspot.known node ((kept_sublist r _).subset (hnodes node hn))
  have hcandidate : ∀ b ∈ r.block o.children, b ∈ r.candidates :=
    fun b hb => (block_sublist r _).subset hb
  have hlast : ∀ node ∈ ((r.front o.children).map m.settledNode).getLast?, node.isBlank = false := by
    intro node hn
    rw [List.getLast?_map] at hn
    obtain ⟨last, hmem, rfl⟩ := Option.map_eq_some_iff.mp hn
    exact (m.isBlank_settledNode last).trans (getLast?_take_additionIndex r.anchor _ last hmem)
  rw [hjoined] at hspot
  obtain ⟨front, lead, gap, es, back, hrelaid⟩ := hspot.exists_relaid hwhite htext
    (by simpa using hblock)
    (List.forall_mem_map.mpr fun b hb => m.isLocal_settled (hportable.isLocal b (hcandidate b hb)))
    (List.forall_mem_map.mpr fun b hb => m.ordinary_settled (hportable.ordinary b (hcandidate b hb)))
    (hkept _ fun node hn => List.mem_of_mem_take hn) (hkept _ fun node hn => List.mem_of_mem_drop hn)
    (apart_joinTexts _) (isBlank_getLast?_joinTexts hlast)
  obtain ⟨o', hato, hname, hchildren⟩ := hspot.read
  rw [hrelaid.read] at hchildren
  -- the entries that are read have the marks of those that were written
  have hsameAt := Element.at?_of_same hsame position
  rw [hato, Element.setAt, Element.at?_modifyAt, hat', Option.map_some] at hsameAt
  cases hsameAt with
  | some hsameOwner =>
  have helements := elements_of_sameNodes (Element.sameNodes_of_same hsameOwner)
  rw [elementsOf_joinTexts, m.elementsOf_map_settledNode, hchildren] at helements
  have hmarks := Identity.map_marks_of_same helements (List.forall_mem_map.mpr hlegible)
  rw [List.map_map, identity.marks_comp_settled] at hmarks
  have hrereads := rereads_of_relaid hrelaid hmarks
  have hagain := hrereads.children_refresh hr hblock o'.name
  rw [← hchildren] at hagain
  -- leaves are on one line already
  have hfixed := Maintainer.settled_of_same hsame
    (hportable.ordinary_setAt hat (Xml.ordinary_of_known _ hx))
    (Maintainer.settled_setAt_joined hat (by
      rw [hjoined]; exact collapsedLeaf?_append_elements _ (by simpa using hblock) _))
  obtain ⟨ms, hms, hbare⟩ := hrelaid.written
  obtain ⟨mk', hmk', hbare'⟩ := hspot.again _ ms hms hbare
  refine ⟨o', mk', hato, hname.trans (m.name_settled o), hbare', fun k => ?_⟩
  rw [hagain, m.settled_setAt hato (collapsedLeaf?_append_elements _ hblock _), hfixed]
  have hstay := Maintainer.settledNode_of_mem (Maintainer.settled_of_at? hato hfixed)
  rw [hchildren] at hstay
  have hself : ∀ nodes : List Node,
      (∀ node ∈ nodes, node ∈ front ++ (lead.toList ++ (spread gap es ++ back))) →
        nodes.map m.settledNode = nodes := fun nodes hnodes =>
    (List.map_congr_left fun node hn => hstay node (hnodes node hn)).trans (List.map_id' nodes)
  rw [List.map_append, List.map_append, map_settledNode_toNode,
    hself front fun node hn => by simp [hn], hself back fun node hn => by simp [hn]]
  exact hmk' k

end Manifest
