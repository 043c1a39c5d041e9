import Manifest.Proofs.Maintenance.Grown
import Manifest.Proofs.Maintenance.Repeating

/-! What is written when a manifest is made anew: the template with all sections grown and leaves on one line.
It can be written wherever the file can be loaded and the result saved. -/

set_option autoImplicit false

namespace Manifest

open Manifest.Action (Gives gives_bind_iff gives_record_iff gives_ofExcept_iff gives_pure_iff gives_tree_iff)
open Xml (Contents Scope)

namespace Maintainer

/-- The document that is written when a manifest is made anew from a template and an existing document. -/
def madeAnew (m : Maintainer) (existing template : Document) : Document :=
  m.settledDocument (Document.keepingAll existing template keptSections)

/-- The root of a template with all sections grown and leaves on one line. -/
def regrown (m : Maintainer) (existing : Document) (root : Element) : Element :=
  m.settled (root.withSections (Document.grownSections existing root keptSections))

end Maintainer

/-! The run. -/

/-- A template that can be read is read in each world. -/
theorem gives_readTemplate {p : Path} {template : String} {t : Document}
    (ht : readText template (some (templateSource p)) = .ok t) (w : World) :
    Gives (Document.readTemplate p template) w t
      { w with log := w.log ++ [readRecord t (some (templateSource p))] } := by
  rw [templateSource] at ht
  simp only [Document.readTemplate, Document.recordRead, ht, gives_bind_iff, gives_ofExcept_iff,
    gives_record_iff, gives_pure_iff]
  exact ⟨_, _, ⟨rfl, rfl⟩, (), _, rfl, rfl, rfl⟩

namespace Maintainer

section
variable {m : Maintainer} {p : Path} {template : String} {t x : Document} {w w₀ w' : World}
  (ht : readText template (some (templateSource p)) = .ok t)
include ht

/-- What is written when a manifest is made anew. -/
theorem gives_regenerate_madeAnew {d : Document} (hload : Gives (Document.load p) w x w₀)
    (hrun : Gives (m.regenerate p template) w d w') :
    d = m.madeAnew x t ∧ ∃ w₁ w₂, w₁.tree = w.tree ∧ Gives ((m.madeAnew x t).save p m.style) w₁ () w₂ ∧
      w'.tree = w₂.tree := by
  obtain ⟨bytes, hbytes, hx, -⟩ := gives_load hload
  obtain ⟨w₁, htree₁, hwrite⟩ := gives_regenerate_of_read ht hbytes hx hrun
  obtain ⟨rfl, w₂, w₃, htree₂, hsave, htree₃⟩ := gives_write hwrite
  exact ⟨rfl, w₂, w₃, htree₂.trans htree₁, hsave, htree₃⟩

/-- A manifest can be made anew where the file can be loaded and what comes of it can be saved. -/
theorem exists_regenerate {root top : Element} (hroot : t.root? = some root)
    (hload : Gives (Document.load p) w x w₀) (htop : x.root? = some top)
    (hsave : ∀ w₁ : World, w₁.tree = w.tree → ∃ w₂, Gives ((m.madeAnew x t).save p m.style) w₁ () w₂) :
    ∃ w', Gives (m.regenerate p template) w (m.madeAnew x t) w' := by
  obtain ⟨bytes, hread, hx, -⟩ := gives_load hload
  obtain ⟨w₁, hload'⟩ := gives_load_iff (w := { w with
    log := w.log ++ [readRecord t (some (templateSource p))] }).mpr ⟨bytes, hread, hx⟩
  obtain ⟨-, -, -, htree₁⟩ := gives_load hload'
  obtain ⟨w₂, hkeep⟩ := exists_keepAll (p := p) htop hroot keptSections w₁
  obtain ⟨-, htree₂⟩ := gives_keepAll hkeep
  obtain ⟨root', hroot', -⟩ := @Document.exists_root_keepingAll x t root hroot keptSections
  obtain ⟨w', hwrite⟩ := exists_write (m := m) (p := p) hroot' fun w₃ hw₃ =>
    hsave w₃ (by rw [hw₃, htree₂, htree₁])
  simp only [regenerate, gives_bind_iff, gives_tree_iff]
  refine ⟨w', t, _, gives_store_iff.mpr (gives_readTemplate ht w), w.tree, _, ⟨rfl, rfl⟩, ?_⟩
  rw [FileTree.has_of_read hread, if_pos rfl]
  simp only [gives_bind_iff]
  exact ⟨x, w₁, gives_store_iff.mpr hload', _, w₂, hkeep, hwrite⟩

end

end Maintainer

/-! The document. -/

/-- Keeping entries of a document with ordinary nodes keeps a document ordinary. -/
theorem Document.IsOrdinary.keepingAll {t existing : Document} {contents : Contents}
    (ht : t.IsOrdinary contents) (hexisting : ∀ top ∈ existing.root?, top.toNode.ordinary)
    (sections : List (List String × Identity))
    (hpaths : ∀ s ∈ sections, ∀ name ∈ s.1, isPlainName name) :
    (existing.keepingAll t sections).IsOrdinary contents := by
  induction sections generalizing t with
  | nil => exact ht
  | cons s sections ih =>
    obtain ⟨hs, hsections⟩ := List.forall_mem_cons.mp hpaths
    refine ih ?_ hsections
    show (t.keeping s.1 s.2.same (existing.sectionAt? s.1)).IsOrdinary contents
    obtain ⟨root, hroot⟩ := ht.exists_root
    cases hsource : existing.sectionAt? s.1 with
    | none => rwa [Document.keeping_none]
    | some source =>
      obtain ⟨top, position, htop, -, hat⟩ := locate_of_sectionAt? hsource
      have hordinary := shape_ordinary.at? hat (hexisting top htop)
      rw [Document.keeping_some hroot, ← Document.withSection_of_root hroot]
      refine ht.withSection hs (fun x => x.name_carrying _ _) fun x hx => ?_
      obtain ⟨htag, hfits⟩ := (shape_ordinary.element_iff x).mp hx
      exact (shape_ordinary.element_iff _).mpr ⟨htag, fits_carry
        ((shape_ordinary.element_iff source).mp hordinary).2.2 s.2.same x.name hfits⟩

/-! Where no more declarations are needed than there are. -/

theorem Element.exists_known_of_at? {e x : Element} {position : Position} (hat : e.at? position = some x)
    {origin : Scope} (he : e.toNode.known origin) : ∃ inner, x.toNode.known inner := by
  induction position generalizing e origin with
  | nil =>
    cases hat
    exact ⟨origin, he⟩
  | cons rank rest ih =>
    obtain ⟨front, c, back, heq, -, hx⟩ := at?_cons hat
    obtain ⟨⟨inner, -, hchildren⟩, -⟩ := he
    rw [heq] at hchildren
    exact ih hx (knownAll_append.mp hchildren).2.1

/-- Entries without namespaces can be carried anywhere. -/
theorem Element.known_carrying {from' inner : Scope} {source : List Node} (hsource : knownAll from' source)
    (hlocal : localAll source = true) (same : Match) {x : Element} (hx : x.toNode.known inner) :
    (x.carrying same source).toNode.known inner := by
  obtain ⟨⟨scope, htag, hchildren⟩, ha⟩ := hx
  have hfits := @fits_carry (·.known scope) x.children source
    (knownAll_iff.mp (knownAll_of_localAll htag.allowed source hsource hlocal)) same x.name
    ⟨ha, knownAll_iff.mp hchildren⟩
  exact ⟨⟨scope, htag, knownAll_iff.mpr hfits.2⟩, hfits.1⟩

/-- If the existing sections name no namespaces, a new document needs no declarations for their entries. -/
theorem Document.knownAll_keepingAll {existing d : Document} (hd : knownAll [] d.nodes)
    (hexisting : knownAll [] existing.nodes) (sections : List (List String × Identity))
    (hpaths : ∀ s ∈ sections, ∀ name ∈ s.1, isPlainName name)
    (hlocal : ∀ s ∈ sections, localAll (existing.nodesAt s.1) = true) :
    knownAll [] (keepingAll existing d sections).nodes := by
  induction sections generalizing d with
  | nil => exact hd
  | cons s sections ih =>
    obtain ⟨hs, hsections⟩ := List.forall_mem_cons.mp hpaths
    obtain ⟨hlocal, hrest⟩ := List.forall_mem_cons.mp hlocal
    refine ih ?_ hsections hrest
    show knownAll [] (d.keeping s.1 s.2.same (existing.sectionAt? s.1)).nodes
    cases hsource : existing.sectionAt? s.1 with
    | none => rwa [keeping_none]
    | some source =>
      obtain ⟨top, position, htop, -, hat⟩ := locate_of_sectionAt? hsource
      obtain ⟨origin, ⟨scope, -, hknown⟩, -⟩ := Element.exists_known_of_at? hat (known_root hexisting htop)
      rw [nodesAt, hsource, Option.map_some, Option.getD_some] at hlocal
      cases hroot : d.root? with
      | none =>
        simp only [keeping, hroot]
        exact hd
      | some root =>
        rw [keeping_some hroot, ← withSection_of_root hroot]
        exact knownAll_withSection hd hs fun inner x _ hx => x.known_carrying hknown hlocal s.2.same hx

/-- The same with all leaves on one line. -/
theorem Maintainer.knownAll_madeAnew {m : Maintainer} {t x : Document} (ht : knownAll [] t.nodes)
    (hx : knownAll [] x.nodes) (hlocal : ∀ s ∈ keptSections, localAll (x.nodesAt s.1) = true) :
    knownAll [] (m.madeAnew x t).nodes := by
  have hall := Document.knownAll_keepingAll ht hx keptSections (by decide) hlocal
  cases hroot : (Document.keepingAll x t keptSections).root? with
  | none => rwa [madeAnew, settledDocument, hroot]
  | some root =>
    rw [madeAnew, m.settledDocument_of_root hroot]
    exact Document.knownAll_withRoot hall (known_settled (Document.known_root hall hroot))

/-! The sections. -/

namespace Maintainer

section
variable {m : Maintainer} {t x : Document} {root : Element} {s : List String × Identity}
  (hcrossing : root.name ∉ crossingRoots)
include hcrossing

theorem madeAnew_eq_withRoot (h : t.root? = some root) : m.madeAnew x t = t.withRoot (m.regrown x root) := by
  rw [madeAnew, Document.keepingAll_eq_withRoot h (keptSections_part hcrossing),
    m.settledDocument_of_root (Document.root?_withRoot _ _ (by rw [h]; rfl)), Document.withRoot_withRoot]
  rfl

omit hcrossing in
theorem name_regrown (m : Maintainer) (x : Document) (root : Element) :
    (m.regrown x root).name = root.name := by
  rw [regrown, m.name_settled, Element.name_withSections]

/-- Each section has the children that it grows to, settled. -/
theorem children_regrown (hs : s ∈ keptSections) :
    ((m.regrown x root).descend (pathBelow root s.1)).map Element.children =
      (Document.grown? x root s).map m.settledChildren := by
  rw [regrown, m.descend_settled, ← Document.children_grownSections (keptSections_part hcrossing) hs,
    Option.map_map, Option.map_map]
  refine Option.map_congr fun o _ => ?_
  exact congrArg Element.children (m.settled_element o.tag o.children)

variable (hroot : t.root? = some root)
include hroot

theorem root?_madeAnew : (m.madeAnew x t).root? = some (m.regrown x root) := by
  rw [madeAnew_eq_withRoot hcrossing hroot]
  exact Document.root?_withRoot _ _ (by rw [hroot]; rfl)

theorem encoding_madeAnew : (m.madeAnew x t).encoding = t.encoding := by
  rw [madeAnew_eq_withRoot hcrossing hroot]
  rfl

/-- Each section of what is written has the nodes that it grows to, settled. -/
theorem nodesAt_madeAnew {s : List String × Identity} (hs : s ∈ keptSections) :
    (m.madeAnew x t).nodesAt s.1 =
      m.settledChildren (carriedInto s.2.same (x.nodesAt s.1) (t.nodesAt s.1)) := by
  rw [Document.nodesAt_of_root (root?_madeAnew hcrossing hroot), pathBelow_congr (name_regrown m x root),
    Element.nodesAt, children_regrown hcrossing hs, Document.nodesAt_of_root hroot]
  cases hgrown : Document.grown? x root s with
  | some nodes => exact congrArg m.settledChildren (Document.eq_carriedInto_of_grown? hgrown)
  | none =>
    have hno := congrArg Option.isSome hgrown
    rw [Document.isSome_grown?, Option.isSome_none, Bool.or_eq_false_iff, Option.isSome_eq_false_iff,
      Option.isSome_eq_false_iff, Option.isNone_iff_eq_none, Option.isNone_iff_eq_none] at hno
    rw [Document.nodesAt, hno.1, Element.nodesAt, hno.2]
    exact (@settledChildren_of_no_leaf m [] rfl).symm

end

end Maintainer

end Manifest
