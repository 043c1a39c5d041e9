import Manifest.Maintenance
import Manifest.Proofs.Action
import Manifest.Proofs.Leaf
import Manifest.Proofs.Merge.Carrying

/-! What is kept when a manifest is made anew. The sections that are kept part from each other unless
the root itself has the name of one; so each of them ends up with the entries of the template's own
section and, behind them, the newcomers among those of the existing file. -/

set_option autoImplicit false

namespace Manifest

open Manifest.Action (Gives gives_bind_iff gives_record_iff gives_ofExcept_iff gives_pure_iff)

namespace Document

/-- The section at a path from the root. -/
def sectionAt? (d : Document) (path : List String) : Option Element :=
  d.root?.bind fun root => root.descend (pathBelow root path)

/-- The entries of the section at a path; none if there is no such section. -/
def entriesAt (d : Document) (path : List String) : List Element :=
  ((d.sectionAt? path).map Element.elements).getD []

/-- The nodes of the section at a path; none if there is no such section. -/
def nodesAt (d : Document) (path : List String) : List Node :=
  ((d.sectionAt? path).map Element.children).getD []

theorem elementsOf_nodesAt (d : Document) (path : List String) :
    elementsOf (d.nodesAt path) = d.entriesAt path := by
  rw [nodesAt, entriesAt]
  cases d.sectionAt? path <;> rfl

end Document

/-- An element with the entries carried over that it lacks. -/
def Element.carrying (same : Match) (source : List Node) (e : Element) : Element :=
  { e with children := (carry same e.name source e.children).children }

/-- A document with the entries of a section carried over into its own section at a path. -/
def Document.keeping (d : Document) (path : List String) (same : Match) (source : Option Element) :
    Document :=
  match d.root?, source with
  | some root, some source =>
    let r := root.ensure (pathBelow root path)
    d.withRoot (r.element.modifyAt (Element.carrying same source.children) r.position)
  | _, _ => d

theorem Document.keeping_none (d : Document) (path : List String) (same : Match) :
    d.keeping path same none = d := by
  cases h : d.root? <;> simp [keeping, h]

theorem Document.keeping_some {d : Document} {root : Element} (h : d.root? = some root)
    (path : List String) (same : Match) (source : Element) :
    d.keeping path same (some source) =
      d.withRoot ((root.ensure (pathBelow root path)).element.modifyAt
        (Element.carrying same source.children) (root.ensure (pathBelow root path)).position) := by
  simp only [keeping, h]

theorem gives_sections_iff {α : Type} {x : Except SectionError α} {w w' : World} {r : α} :
    Gives (Upkeep.sections x) w r w' ↔ x = .ok r ∧ w = w' :=
  gives_ofExcept_iff

theorem gives_store_iff {α : Type} {a : Action StoreError α} {w w' : World} {r : α} :
    Gives (Upkeep.store a) w r w' ↔ Gives a w r w' :=
  Action.gives_adapt_iff

/-- A section that is looked for. -/
theorem gives_findSection {d : Document} {path : List String} {w w' : World}
    {place : Option Position} (h : Gives (findSection d path) w place w') :
    w'.tree = w.tree ∧ ∃ root, d.root? = some root ∧ place = root.locate (pathBelow root path) := by
  rw [findSection, gives_bind_iff] at h
  obtain ⟨⟨place', log⟩, w₁, hgives, h⟩ := h
  obtain ⟨hfind, rfl⟩ := gives_sections_iff.mp hgives
  simp only [gives_bind_iff, gives_record_iff, gives_pure_iff] at h
  obtain ⟨-, -, rfl, rfl, rfl⟩ := h
  refine ⟨rfl, ?_⟩
  rw [Document.find, Document.locate] at hfind
  cases hroot : d.root? with
  | none => simp [hroot, Except.map] at hfind
  | some root =>
    rw [hroot] at hfind
    refine ⟨root, rfl, ?_⟩
    cases hl : root.locate (pathBelow root path) with
    | none =>
      simp only [hl, Except.map, Except.ok.injEq, Prod.mk.injEq] at hfind
      exact hfind.1.symm
    | some position =>
      simp only [hl, Except.map, Except.ok.injEq, Prod.mk.injEq] at hfind
      exact hfind.1.symm

theorem exists_findSection {d : Document} {root : Element} (hroot : d.root? = some root)
    (path : List String) (w : World) :
    ∃ w', Gives (findSection d path) w (root.locate (pathBelow root path)) w' := by
  obtain ⟨log, hfind⟩ : ∃ log, d.find none path = .ok (root.locate (pathBelow root path), log) := by
    rw [Document.find, Document.locate, hroot]
    cases hl : root.locate (pathBelow root path) with
    | none => exact ⟨_, by simp only [hl]; rfl⟩
    | some position => exact ⟨_, by simp only [hl]; rfl⟩
  simp only [findSection, gives_bind_iff, gives_record_iff, gives_pure_iff]
  exact ⟨_, (_, log), w, gives_sections_iff.mpr ⟨hfind, rfl⟩, (), _, rfl, rfl, rfl⟩

/-- A section that is created if it is missing. -/
theorem gives_ensureSection {d d' : Document} {path : List String} {w w' : World}
    {position : Position} (h : Gives (ensureSection d path) w (d', position) w') :
    w'.tree = w.tree ∧ ∃ root, d.root? = some root ∧
      d' = d.withRoot (root.ensure (pathBelow root path)).element ∧
      position = (root.ensure (pathBelow root path)).position := by
  rw [ensureSection, gives_bind_iff] at h
  obtain ⟨⟨d₁, position', log⟩, w₁, hgives, h⟩ := h
  obtain ⟨hensure, rfl⟩ := gives_sections_iff.mp hgives
  simp only [gives_bind_iff, gives_record_iff, gives_pure_iff] at h
  obtain ⟨-, -, rfl, heq, rfl⟩ := h
  cases heq
  refine ⟨rfl, ?_⟩
  rw [Document.ensure] at hensure
  cases hroot : d.root? with
  | none => simp [hroot] at hensure
  | some root =>
    simp only [hroot, Except.ok.injEq, Prod.mk.injEq] at hensure
    exact ⟨root, rfl, hensure.1.symm, hensure.2.1.symm⟩

theorem exists_ensureSection {d : Document} {root : Element} (hroot : d.root? = some root)
    (path : List String) (w : World) :
    ∃ w', Gives (ensureSection d path) w (d.withRoot (root.ensure (pathBelow root path)).element,
      (root.ensure (pathBelow root path)).position) w' := by
  have hensure : d.ensure none path = .ok (d.withRoot (root.ensure (pathBelow root path)).element,
      (root.ensure (pathBelow root path)).position, (root.ensure (pathBelow root path)).log) := by
    rw [Document.ensure, hroot]
  simp only [ensureSection, gives_bind_iff, gives_record_iff, gives_pure_iff]
  exact ⟨_, _, _, gives_sections_iff.mpr ⟨hensure, rfl⟩, (), _, rfl, rfl, rfl⟩

theorem Document.at?_of_locate {d : Document} {root : Element} (hroot : d.root? = some root)
    {path : List String} {position : Position}
    (h : root.locate (pathBelow root path) = some position) :
    d.at? position = d.sectionAt? path := by
  rw [Document.at?, Document.sectionAt?, hroot, Option.bind_some, Option.bind_some,
    Element.at?_of_locate h]

/-- Entries that are carried into the section at a position. -/
theorem carry_eq_ok {d d' : Document} {position : Position} {same : Match} {source : Element}
    {change : Change} (h : d.carry (some position) same (some source) = .ok (d', change)) :
    d' = d.modifyAt (Element.carrying same source.children) position := by
  rw [Document.carry] at h
  obtain ⟨owner, howner, hresult, hd'⟩ := Document.onSection_eq_ok h
  obtain ⟨root, hroot, hat⟩ := Document.at?_eq_some howner
  rw [hd', hresult, Document.setChildren, Document.modifyAt, Document.modifyAt, hroot]
  simp only
  congr 1
  exact Element.modifyAt_congr hat rfl

namespace Maintainer

/-- Keeping the entries of one section changes the new document as `Document.keeping` says. -/
theorem gives_keep {p : Path} {existing new d : Document} {path : List String}
    {identity : Identity} {w w' : World} (h : Gives (keep p existing new path identity) w d w') :
    d = new.keeping path identity.same (existing.sectionAt? path) ∧ w'.tree = w.tree := by
  rw [keep, gives_bind_iff] at h
  obtain ⟨source, w₁, hsource, h⟩ := h
  obtain ⟨htree, root, hroot, rfl⟩ := gives_findSection hsource
  cases hl : root.locate (pathBelow root path) with
  | none =>
    have hnone : existing.sectionAt? path = none := by
      rw [Document.sectionAt?, hroot, Option.bind_some, Element.locate_eq_none_iff.mp hl]
    rw [hl] at h
    obtain ⟨hd, hw⟩ := gives_pure_iff.mp h
    rw [hnone, ← hd, ← hw]
    exact ⟨(Document.keeping_none new path identity.same).symm, htree⟩
  | some position =>
    rw [hl] at h
    obtain ⟨place, w₂, hplace, h⟩ := gives_bind_iff.mp h
    obtain ⟨htree₂, top, htop, rfl⟩ := gives_findSection hplace
    -- found or created, the target is the same document at the same position
    obtain ⟨change, htree₃, hcarry⟩ : ∃ change : Change, w'.tree = w₂.tree ∧
        (new.withRoot (top.ensure (pathBelow top path)).element).carry
            (some (top.ensure (pathBelow top path)).position) identity.same
            (existing.at? position) = .ok (d, change) := by
      cases hl' : top.locate (pathBelow top path) with
      | none =>
        simp only [hl', gives_bind_iff, gives_record_iff, gives_pure_iff] at h
        obtain ⟨⟨target, position'⟩, w₃, htarget, ⟨d', change⟩, w₄, hsections, -, w₅, hw₅, rfl, rfl⟩ :=
          h
        obtain ⟨hcarry, rfl⟩ := gives_sections_iff.mp hsections
        obtain ⟨htree₃, top', htop', rfl, rfl⟩ := gives_ensureSection htarget
        rw [htop] at htop'
        cases htop'
        exact ⟨change, by rw [hw₅]; exact htree₃, hcarry⟩
      | some found =>
        simp only [hl', gives_bind_iff, gives_record_iff, gives_pure_iff] at h
        obtain ⟨⟨target, position'⟩, w₃, ⟨htarget, rfl⟩, ⟨d', change⟩, w₄, hsections, -, w₅, hw₅, rfl,
          rfl⟩ := h
        obtain ⟨hcarry, rfl⟩ := gives_sections_iff.mp hsections
        cases htarget
        have hsome : (top.descend (pathBelow top path)).isSome = true := by
          have hspec := top.locate_spec (pathBelow top path)
          rw [hl'] at hspec
          exact hspec.2
        obtain ⟨s, hs⟩ := Option.isSome_iff_exists.mp hsome
        obtain ⟨helement, hlocate⟩ := Element.element_ensure_of_descend hs
        rw [hl'] at hlocate
        rw [helement, Document.withRoot_self htop, ← Option.some.inj hlocate]
        exact ⟨change, by rw [hw₅], hcarry⟩
    have hat : existing.at? position = existing.sectionAt? path := Document.at?_of_locate hroot hl
    obtain ⟨s, hs⟩ : ∃ s, existing.sectionAt? path = some s := by
      have hspec := root.locate_spec (pathBelow root path)
      rw [hl] at hspec
      rw [Document.sectionAt?, hroot, Option.bind_some]
      exact Option.isSome_iff_exists.mp hspec.2
    rw [hat, hs] at hcarry
    have hd' := carry_eq_ok hcarry
    refine ⟨?_, by rw [htree₃, htree₂, htree]⟩
    rw [hd', hs, Document.keeping_some htop, Document.modifyAt,
      Document.root?_withRoot _ _ (by simp [htop])]
    simp only
    rw [Document.withRoot_withRoot]

/-- The entries of a section can be kept wherever there are roots. -/
theorem exists_keep {p : Path} {existing new : Document} {top root : Element}
    (htop : existing.root? = some top) (hroot : new.root? = some root) (path : List String)
    (identity : Identity) (w : World) : ∃ d w', Gives (keep p existing new path identity) w d w' := by
  obtain ⟨w₁, hsource⟩ := exists_findSection htop path w
  cases hl : top.locate (pathBelow top path) with
  | none =>
    rw [hl] at hsource
    exact ⟨new, w₁, gives_bind_iff.mpr ⟨none, w₁, hsource, gives_pure_iff.mpr ⟨rfl, rfl⟩⟩⟩
  | some source =>
    rw [hl] at hsource
    obtain ⟨w₂, hplace⟩ := exists_findSection hroot path w₁
    obtain ⟨owner, hat, -, -, -⟩ := root.at?_ensure (pathBelow root path)
    have hcarry : ∀ {d : Document} {position : Position} {owner : Element} (w : World),
        d.at? position = some owner → ∃ d' w', Gives (do
          let carried ← Upkeep.sections (d.carry (some position) identity.same (existing.at? source))
          Action.record (carried.2.log ++ keptRecords carried.2.entries.length path p)
          return carried.1) w d' w' := by
      intro d position owner w hat
      simp only [gives_bind_iff, gives_record_iff, gives_pure_iff]
      exact ⟨_, _, (_, _), _, gives_sections_iff.mpr ⟨Document.onSection_of_at? _ _ hat, rfl⟩, (), _, rfl,
        rfl, rfl⟩
    cases hl' : root.locate (pathBelow root path) with
    | none =>
      rw [hl'] at hplace
      obtain ⟨w₃, htarget⟩ := exists_ensureSection hroot path w₂
      have hat' := (Document.at?_withRoot (d := new) (by rw [hroot]; rfl) _ _).trans hat
      obtain ⟨d, w₄, hgives⟩ := hcarry w₃ hat'
      exact ⟨d, w₄, gives_bind_iff.mpr ⟨_, _, hsource, gives_bind_iff.mpr ⟨_, _, hplace, gives_bind_iff.mpr
        ⟨_, _, htarget, hgives⟩⟩⟩⟩
    | some position =>
      rw [hl'] at hplace
      have hspec := root.locate_spec (pathBelow root path)
      rw [hl'] at hspec
      obtain ⟨o, ho⟩ := Option.isSome_iff_exists.mp hspec.2
      obtain ⟨d, w₄, hgives⟩ := @hcarry new position o w₂ (by
        rw [Document.at?, hroot]
        exact hspec.1.trans ho)
      exact ⟨d, w₄, gives_bind_iff.mpr ⟨_, _, hsource, gives_bind_iff.mpr ⟨_, _, hplace, gives_bind_iff.mpr
        ⟨_, _, gives_pure_iff.mpr ⟨rfl, rfl⟩, hgives⟩⟩⟩⟩

end Maintainer

/-! The sections of a document in which entries were kept. -/

@[simp] theorem Element.name_carrying (same : Match) (source : List Node) (e : Element) :
    (e.carrying same source).name = e.name := rfl

theorem Element.elements_carrying (same : Match) (source : List Node) (e : Element) :
    (e.carrying same source).elements =
      e.elements ++ newcomers same id e.elements (elementsOf source) := by
  rw [carrying, elements, elementsOf_carry, map_snd_carriedOf, elements]

namespace Document

/-- Keeping entries gives the document another root of the same name. -/
theorem root?_keeping {d : Document} {root : Element} (h : d.root? = some root)
    (path : List String) (same : Match) (source : Option Element) :
    ∃ root', (d.keeping path same source).root? = some root' ∧ root'.name = root.name := by
  cases source with
  | none => exact ⟨root, by rw [keeping_none, h], rfl⟩
  | some source =>
    refine ⟨_, by rw [keeping_some h, root?_withRoot _ _ (by simp [h])], ?_⟩
    rw [Element.name_modifyAt (fun x => Element.name_carrying same source.children x),
      Element.name_ensure]

/-- The section itself has what was carried into it; it is created empty if it was not there. -/
theorem sectionAt?_keeping {d : Document} {root : Element} (h : d.root? = some root)
    (path : List String) (same : Match) (source : Element) :
    ∃ owner, (d.keeping path same (some source)).sectionAt? path =
        some (owner.carrying same source.children) ∧
      (d.sectionAt? path = some owner ∨ d.sectionAt? path = none ∧ owner.children = []) := by
  obtain ⟨owner, -, hlocate, hdescend, hbefore⟩ := Element.at?_ensure root (pathBelow root path)
  have hname : ∀ x : Element, (x.carrying same source.children).name = x.name := fun _ => rfl
  have hbelow := fun position => pathBelow_congr (((Element.name_modifyAt hname position _).trans
    (Element.name_ensure root (pathBelow root path)))) path
  refine ⟨owner, ?_, ?_⟩
  · rw [sectionAt?, keeping_some h, root?_withRoot _ _ (by simp [h]), Option.bind_some, hbelow,
      Element.descend_modifyAt hname hlocate, hdescend, Option.map_some]
  · rwa [sectionAt?, h, Option.bind_some]

/-- No section whose path parts from that of the section is touched. -/
theorem sectionAt?_keeping_of_parts {d : Document} {root : Element} (h : d.root? = some root)
    {path other : List String} (hparts : parts (pathBelow root other) (pathBelow root path) = true)
    (same : Match) (source : Option Element) :
    (d.keeping path same source).sectionAt? other = d.sectionAt? other := by
  cases source with
  | none => rw [keeping_none]
  | some source =>
    obtain ⟨owner, -, hlocate, -, -⟩ := Element.at?_ensure root (pathBelow root path)
    have hname : ∀ x : Element, (x.carrying same source.children).name = x.name := fun _ => rfl
    have hbelow := fun position => pathBelow_congr (((Element.name_modifyAt hname position _).trans
      (Element.name_ensure root (pathBelow root path)))) other
    rw [sectionAt?, keeping_some h, root?_withRoot _ _ (by simp [h]), Option.bind_some, hbelow,
      Element.descend_modifyAt_of_parts hname hlocate hparts,
      Element.descend_ensure_of_parts hparts, sectionAt?, h, Option.bind_some]

/-- A document in which the entries of some sections of an existing one were kept. -/
def keepingAll (existing d : Document) (sections : List (List String × Identity)) : Document :=
  sections.foldl (fun d (path, identity) =>
    d.keeping path identity.same (existing.sectionAt? path)) d

theorem sectionAt?_keepingAll_of_parts {existing d : Document} {root : Element}
    (h : d.root? = some root) {sections : List (List String × Identity)} {other : List String}
    (hparts : ∀ s ∈ sections, parts (pathBelow root other) (pathBelow root s.1) = true) :
    (keepingAll existing d sections).sectionAt? other = d.sectionAt? other := by
  induction sections generalizing d root with
  | nil => rfl
  | cons s sections ih =>
    obtain ⟨root', hroot', hname⟩ :=
      root?_keeping h s.1 s.2.same (existing.sectionAt? s.1)
    rw [keepingAll, List.foldl_cons]
    refine (ih hroot' fun t ht => ?_).trans
      (sectionAt?_keeping_of_parts h (hparts s List.mem_cons_self) _ _)
    rw [pathBelow_congr hname, pathBelow_congr hname]
    exact hparts t (List.mem_cons_of_mem s ht)

/--
What a section has become when entries were carried into it from a section of the existing document, if
there is one.
-/
def Continues (same : Match) (source own result : Option Element) : Prop :=
  match source with
  | none => result = own
  | some source => ∃ owner, result = some (owner.carrying same source.children) ∧
    (own = some owner ∨ own = none ∧ owner.children = [])

/-- Where paths part, each section ends up with what it had and what is carried into it. -/
theorem continues_keepingAll {existing d : Document} {root : Element} (h : d.root? = some root)
    {sections : List (List String × Identity)}
    (hparts : sections.Pairwise fun a b => parts (pathBelow root a.1) (pathBelow root b.1) = true)
    {s : List String × Identity} (hs : s ∈ sections) :
    Continues s.2.same (existing.sectionAt? s.1) (d.sectionAt? s.1)
      ((keepingAll existing d sections).sectionAt? s.1) := by
  induction sections generalizing d root with
  | nil => cases hs
  | cons t sections ih =>
    obtain ⟨hfirst, hrest⟩ := List.pairwise_cons.mp hparts
    obtain ⟨root', hroot', hname⟩ :=
      root?_keeping h t.1 t.2.same (existing.sectionAt? t.1)
    have hbelow : ∀ path, pathBelow root' path = pathBelow root path := pathBelow_congr hname
    rw [keepingAll, List.foldl_cons]
    rcases List.mem_cons.mp hs with rfl | hs
    · have hlater := @sectionAt?_keepingAll_of_parts existing
        (d.keeping s.1 s.2.same (existing.sectionAt? s.1)) root' hroot' sections s.1 fun t ht => by
          rw [hbelow, hbelow]
          exact hfirst t ht
      rw [keepingAll] at hlater
      rw [hlater]
      cases hsource : existing.sectionAt? s.1 with
      | none => rw [keeping_none]; rfl
      | some source => exact sectionAt?_keeping h s.1 s.2.same source
    · have hother : (d.keeping t.1 t.2.same (existing.sectionAt? t.1)).sectionAt? s.1 =
          d.sectionAt? s.1 := by
        apply sectionAt?_keeping_of_parts h
        rw [parts_comm]
        exact hfirst s hs
      have hih := ih hroot' (by simpa only [hbelow] using hrest) hs
      rw [hother] at hih
      exact hih

/-- Keeping entries leaves a document with a root. -/
theorem exists_root_keepingAll {existing d : Document} {root : Element} (h : d.root? = some root)
    (sections : List (List String × Identity)) :
    ∃ root', (keepingAll existing d sections).root? = some root' ∧ root'.name = root.name := by
  induction sections generalizing d root with
  | nil => exact ⟨root, h, rfl⟩
  | cons s sections ih =>
    obtain ⟨root₁, hroot₁, hname₁⟩ := root?_keeping h s.1 s.2.same (existing.sectionAt? s.1)
    obtain ⟨root', hroot', hname⟩ := ih hroot₁
    exact ⟨root', hroot', hname.trans hname₁⟩

/-- The entries of such a section are its own and the newcomers. -/
theorem elements_of_continues {same : Match} {source own result : Option Element}
    (h : Continues same source own result) :
    (result.map Element.elements).getD [] =
      (own.map Element.elements).getD [] ++ newcomers same id ((own.map Element.elements).getD [])
        ((source.map Element.elements).getD []) := by
  cases source with
  | none =>
    rw [show result = own from h]
    simp
  | some source =>
    obtain ⟨owner, rfl, hown⟩ := h
    have helements : (own.map Element.elements).getD [] = owner.elements := by
      rcases hown with rfl | ⟨rfl, hempty⟩
      · rfl
      · rw [Element.elements, hempty]
        rfl
    rw [Option.map_some, Option.getD_some, Element.elements_carrying, helements]
    rfl

/-- Where paths part, each section ends up with its own entries and the newcomers. -/
theorem entriesAt_keepingAll {existing d : Document} {root : Element} (h : d.root? = some root)
    {sections : List (List String × Identity)}
    (hparts : sections.Pairwise fun a b => parts (pathBelow root a.1) (pathBelow root b.1) = true)
    {s : List String × Identity} (hs : s ∈ sections) :
    (keepingAll existing d sections).entriesAt s.1 =
      d.entriesAt s.1 ++
        newcomers s.2.same id (d.entriesAt s.1) (existing.entriesAt s.1) :=
  elements_of_continues (continues_keepingAll h hparts hs)

end Document

/-- Names of sections that a root may not have if the sections that are kept are to part. -/
def crossingRoots : List String :=
  ["modules", "properties", "dependencyManagement", "dependencies", "profiles"]

theorem keptSections_part {root : Element} (h : root.name ∉ crossingRoots) :
    Maintainer.keptSections.Pairwise fun a b =>
      parts (pathBelow root a.1) (pathBelow root b.1) = true := by
  simp only [crossingRoots, List.mem_cons, List.not_mem_nil, or_false, not_or] at h
  obtain ⟨h1, h2, h3, h4, h5⟩ := h
  by_cases hb : root.name = "build"
  · simp [Maintainer.keptSections, pathBelow, hb, parts]
  · simp [Maintainer.keptSections, pathBelow, Ne.symm h1, Ne.symm h2, Ne.symm h3, Ne.symm h4,
      Ne.symm h5, Ne.symm hb, parts]

end Manifest
