import Manifest.Proofs.Maintenance.Resettling
import Manifest.Proofs.Merge.Again
import Manifest.Proofs.Section.Apart

/-! What the sections of a document grow to when entries are kept in all of them. As their paths part, each of
them can be given its new children at once, and what is made of one does not depend on the others. Leaves can
be put on one line before or after. -/

set_option autoImplicit false

namespace Manifest

/-! All sections at once. -/

namespace Document

theorem nodesAt_of_root {d : Document} {root : Element} (h : d.root? = some root) (path : List String) :
    d.nodesAt path = root.nodesAt (pathBelow root path) := by
  rw [nodesAt, sectionAt?, h]
  rfl

/-- What a section grows to, if it is there in the existing document or in the new one. -/
def grown? (existing : Document) (root : Element) (s : List String × Identity) : Option (List Node) :=
  if (existing.sectionAt? s.1).isSome || (root.descend (pathBelow root s.1)).isSome then
    some (carriedInto s.2.same (existing.nodesAt s.1) (root.nodesAt (pathBelow root s.1)))
  else none

theorem isSome_grown? (existing : Document) (root : Element) (s : List String × Identity) :
    (grown? existing root s).isSome =
      ((existing.sectionAt? s.1).isSome || (root.descend (pathBelow root s.1)).isSome) := by
  rw [grown?]
  cases existing.sectionAt? s.1 <;> cases root.descend (pathBelow root s.1) <;> rfl

theorem eq_carriedInto_of_grown? {existing : Document} {root : Element} {s : List String × Identity}
    {nodes : List Node} (h : grown? existing root s = some nodes) :
    nodes = carriedInto s.2.same (existing.nodesAt s.1) (root.nodesAt (pathBelow root s.1)) := by
  rw [grown?] at h
  split at h
  · exact (Option.some.inj h).symm
  · cases h

/-- Where a section has grown, it grows again. -/
theorem isSome_grown?_again {existing read : Document} {root : Element} {s : List String × Identity}
    (h : (read.sectionAt? s.1).isSome = (grown? existing root s).isSome) :
    (grown? read root s).isSome = (grown? existing root s).isSome := by
  rw [isSome_grown?, h, isSome_grown?]
  cases existing.sectionAt? s.1 <;> cases root.descend (pathBelow root s.1) <;> rfl

/-- The sections of a new document that there are in the end, and what they grow to. -/
def grownSections (existing : Document) (root : Element) (sections : List (List String × Identity)) :
    List (List String × List Node) :=
  sections.filterMap fun s => (grown? existing root s).map (pathBelow root s.1, ·)

/-- Keeping the entries of one section gives it the children that it grows to. -/
theorem keeping_eq_withRoot {existing d : Document} {root : Element} (h : d.root? = some root)
    (s : List String × Identity) :
    d.keeping s.1 s.2.same (existing.sectionAt? s.1) =
      d.withRoot (root.withSections (grownSections existing root [s])) := by
  rw [grownSections, List.filterMap_cons, List.filterMap_nil, grown?]
  cases hsource : existing.sectionAt? s.1 with
  | some source =>
    have hnodes : existing.nodesAt s.1 = source.children := by rw [nodesAt, hsource]; rfl
    rw [keeping_some h, hnodes]
    refine congrArg d.withRoot (Element.inSection_congr fun owner howner => ?_)
    rw [Element.carrying, children_carry, howner]
    rfl
  | none =>
    have hnodes : existing.nodesAt s.1 = [] := by rw [nodesAt, hsource]; rfl
    rw [keeping_none, hnodes, carriedInto_nil]
    cases howner : root.descend (pathBelow root s.1) with
    | none => exact (withRoot_self h).symm
    | some owner =>
      have hown : root.nodesAt (pathBelow root s.1) = owner.children := by
        rw [Element.nodesAt, howner]
        rfl
      rw [hown]
      exact ((congrArg d.withRoot (Element.inSection_holding_self howner)).trans (withRoot_self h)).symm

theorem grown?_congr {existing : Document} {root root' : Element} (hname : root'.name = root.name)
    {s : List String × Identity}
    (h : root'.descend (pathBelow root s.1) = root.descend (pathBelow root s.1)) :
    grown? existing root' s = grown? existing root s := by
  rw [grown?, grown?, Element.nodesAt, Element.nodesAt, pathBelow_congr hname, h]

/-- Where paths part, keeping the entries of all sections gives them the children that they grow to. -/
theorem keepingAll_eq_withRoot {existing d : Document} {root : Element} (h : d.root? = some root)
    {sections : List (List String × Identity)}
    (hparts : sections.Pairwise fun a b => parts (pathBelow root a.1) (pathBelow root b.1) = true) :
    keepingAll existing d sections =
      d.withRoot (root.withSections (grownSections existing root sections)) := by
  induction sections generalizing d root with
  | nil => exact (withRoot_self h).symm
  | cons s sections ih =>
    obtain ⟨hs, hsections⟩ := List.pairwise_cons.mp hparts
    have hname : (root.withSections (grownSections existing root [s])).name = root.name :=
      Element.name_withSections _ _
    have hroot := root?_withRoot d (root.withSections (grownSections existing root [s])) (by rw [h]; rfl)
    have hsame : grownSections existing (root.withSections (grownSections existing root [s])) sections =
        grownSections existing root sections := by
      refine List.filterMap_congr fun t ht => ?_
      have hstay : (root.withSections (grownSections existing root [s])).descend (pathBelow root t.1) =
          root.descend (pathBelow root t.1) := by
        refine Element.descend_withSections_of_parts fun a ha => ?_
        obtain ⟨u, hu, hgrown⟩ := List.mem_filterMap.mp ha
        obtain ⟨nodes, -, rfl⟩ := Option.map_eq_some_iff.mp hgrown
        rw [List.mem_singleton.mp hu, parts_comm]
        exact hs t ht
      rw [grown?_congr hname hstay, pathBelow_congr hname]
    have hstep : keepingAll existing d (s :: sections) =
        keepingAll existing (d.keeping s.1 s.2.same (existing.sectionAt? s.1)) sections := rfl
    rw [hstep, keeping_eq_withRoot h, ih hroot, withRoot_withRoot, hsame]
    · congr 1
      rw [Element.withSections, Element.withSections, Element.withSections, ← List.foldl_append,
        grownSections, grownSections, grownSections, ← List.filterMap_append]
      rfl
    · exact hsections.imp fun hab => by rwa [pathBelow_congr hname, pathBelow_congr hname]

/-- The sections that there are in the end part like all of them. -/
theorem pairwise_grownSections {existing : Document} {root : Element}
    {sections : List (List String × Identity)}
    (hparts : sections.Pairwise fun a b => parts (pathBelow root a.1) (pathBelow root b.1) = true) :
    (grownSections existing root sections).Pairwise fun a b => parts a.1 b.1 = true := by
  refine List.pairwise_filterMap.mpr (hparts.imp fun hab c hc d hd => ?_)
  obtain ⟨nodes, -, rfl⟩ := Option.map_eq_some_iff.mp hc
  obtain ⟨nodes', -, rfl⟩ := Option.map_eq_some_iff.mp hd
  exact hab

section
variable {existing : Document} {root : Element} {sections : List (List String × Identity)}
  (hparts : sections.Pairwise fun a b => parts (pathBelow root a.1) (pathBelow root b.1) = true)
include hparts

/-- Each section has the children that it grows to, or is not there. -/
theorem children_grownSections {s : List String × Identity} (hs : s ∈ sections) :
    ((root.withSections (grownSections existing root sections)).descend (pathBelow root s.1)).map
      Element.children = grown? existing root s := by
  cases hgrown : grown? existing root s with
  | some nodes =>
    have hmem : (pathBelow root s.1, nodes) ∈ grownSections existing root sections :=
      List.mem_filterMap.mpr ⟨s, hs, by rw [hgrown]; rfl⟩
    exact Element.children_withSections (pairwise_grownSections hparts) hmem
  | none =>
    have hall : ∀ a ∈ grownSections existing root sections, parts (pathBelow root s.1) a.1 = true := by
      intro a ha
      obtain ⟨t, ht, hmap⟩ := List.mem_filterMap.mp ha
      obtain ⟨nodes, hnodes, rfl⟩ := Option.map_eq_some_iff.mp hmap
      have _ : Std.Symm fun a b : List String × Identity =>
          parts (pathBelow root a.1) (pathBelow root b.1) = true :=
        ⟨fun _ _ hab => (parts_comm _ _).trans hab⟩
      refine hparts.forall hs ht ?_
      rintro rfl
      rw [hgrown] at hnodes
      cases hnodes
    rw [grown?] at hgrown
    split at hgrown
    · cases hgrown
    · next hno =>
      rw [Bool.or_eq_true, not_or, Option.not_isSome_iff_eq_none, Option.not_isSome_iff_eq_none] at hno
      rw [Element.descend_withSections_of_parts hall, hno.2]
      rfl

/--
When a document in which the sections have grown is taken for the existing one, all that counts is what the
same sections grow to then.
-/
theorem withSections_grownSections_again {read : Document}
    (hread : ∀ s ∈ sections, (read.sectionAt? s.1).isSome = (grown? existing root s).isSome) :
    (root.withSections (grownSections existing root sections)).withSections (grownSections read root sections) =
      root.withSections (grownSections read root sections) := by
  refine Element.withSections_withSections ?_ (pairwise_grownSections hparts)
  rw [grownSections, grownSections, List.map_filterMap, List.map_filterMap]
  refine List.filterMap_congr fun s hs => ?_
  have hsome := isSome_grown?_again (hread s hs)
  rw [Option.map_map, Option.map_map]
  cases hread : grown? read root s <;> cases hgrown : grown? existing root s <;>
    first | rfl | rw [hread, hgrown] at hsome; cases hsome

end

end Document

/-! Leaves on one line. -/

/-- Sections that are there can get their children before or after leaves are put on one line. -/
theorem Maintainer.settled_withSections (m : Maintainer) {e : Element}
    {sections : List (List String × List Node)}
    (hparts : sections.Pairwise fun a b => parts a.1 b.1 = true)
    (hthere : ∀ s ∈ sections, (e.descend s.1).isSome = true) :
    m.settled (e.withSections sections) =
      (m.settled e).withSections (sections.map fun s => (s.1, m.settledChildren s.2)) := by
  induction sections generalizing e with
  | nil => rfl
  | cons s sections ih =>
    obtain ⟨hs, hsections⟩ := List.pairwise_cons.mp hparts
    obtain ⟨⟨owner, howner⟩, hrest⟩ := (List.forall_mem_cons.mp hthere).imp_left Option.isSome_iff_exists.mp
    obtain ⟨-, hlocate⟩ := Element.element_ensure_of_descend howner
    have hat := (Element.at?_of_locate hlocate).trans howner
    have hlocate' := (Element.locate_settled m e s.1).trans hlocate
    rw [List.map_cons, Element.withSections_cons, Element.withSections_cons, ih hsections]
    · congr 1
      rw [Element.inSection_of_locate hlocate, Element.inSection_of_locate hlocate']
      exact m.settled_setAt_children hat s.2
    · intro t ht
      rw [Element.descend_inSection_of_parts (Element.name_holding s.2) e (by rw [parts_comm]; exact hs t ht)]
      exact hrest t ht

end Manifest
