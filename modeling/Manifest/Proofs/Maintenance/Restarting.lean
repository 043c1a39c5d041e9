import Manifest.Proofs.Maintenance.Recarrying
import Manifest.Proofs.Maintenance.Remaking

/-! Making a manifest anew twice from the same template. What was written is loaded and carried from, so each
section grows to what it was, and the file stays as it is. Only where a section of the template ends with
comments are these taken for the first entry's, and there is one more copy of them each time. -/

set_option autoImplicit false

namespace Manifest

open Manifest.Action (Gives)
open Xml (Contents Markup isDocumentText qualify)

/-- Whether a document is written without any prefix that has to be made up. -/
def Document.isUnnumbered (d : Document) : Bool :=
  d.root?.all fun root => (qualify [] none 0 root.toNode).all (·.2 == 0)

/-- Whether the tags of a document say all that they need, so that they are read as they were written. -/
structure Document.KeepsTags (d : Document) : Prop where
  known : knownAll [] d.nodes
  settled : d.isSettled = true
  unnumbered : d.isUnnumbered = true

namespace Maintainer

/-! What is read again. -/

section
variable {m : Maintainer} {x read : Document} {root e : Element} {s : List String × Identity}
  (hcrossing : root.name ∉ crossingRoots) (hloaded : read.root? = some e)
  (hsame : e.toNode.same (m.regrown x root).toNode = true)
include hcrossing hloaded hsame

/-- The sections of what was written are those of what is read. -/
theorem isSome_sectionAt?_reread (hs : s ∈ keptSections) :
    (read.sectionAt? s.1).isSome = (Document.grown? x root s).isSome := by
  have hname : e.name = root.name := (Element.name_of_same hsame).trans (name_regrown m x root)
  have hrel := Element.descend_of_same hsame (pathBelow root s.1)
  have hchildren := congrArg Option.isSome (children_regrown (m := m) (x := x) hcrossing hs)
  rw [Option.isSome_map, Option.isSome_map] at hchildren
  rw [Document.sectionAt?, hloaded, Option.bind_some, pathBelow_congr hname, ← hchildren]
  generalize e.descend (pathBelow root s.1) = a at hrel ⊢
  generalize (m.regrown x root).descend (pathBelow root s.1) = b at hrel ⊢
  cases hrel <;> rfl

/-- What is read grows in place of what was written. -/
theorem regrown_reread : m.regrown read root = (m.regrown x root).withSections
    ((Document.grownSections read root keptSections).map fun s => (s.1, m.settledChildren s.2)) := by
  have hparts := keptSections_part hcrossing
  have hread : ∀ s ∈ keptSections, (read.sectionAt? s.1).isSome = (Document.grown? x root s).isSome :=
    fun s hs => isSome_sectionAt?_reread hcrossing hloaded hsame hs
  rw [regrown, ← Document.withSections_grownSections_again hparts hread, regrown]
  refine m.settled_withSections (Document.pairwise_grownSections hparts) fun a ha => ?_
  obtain ⟨s, hs, hgrown⟩ := List.mem_filterMap.mp ha
  obtain ⟨nodes, hnodes, rfl⟩ := Option.map_eq_some_iff.mp hgrown
  have hsome : (Document.grown? x root s).isSome = true := by
    rw [← Document.isSome_grown?_again (hread s hs), hnodes]
    rfl
  rw [← Document.children_grownSections hparts hs, Option.isSome_map] at hsome
  exact hsome

/--
Written and read, what has grown can grow again and is then written in the same way but for white space,
unless something is carried behind comments.
-/
theorem exists_qualify_regrown {unit : String} {markup : Markup}
    (h : m.Rereads unit (m.regrown x root) e markup) (hwhite : Markup.isWhite unit = true)
    (htext : isDocumentText unit = true)
    (hself : ∀ s ∈ keptSections, ∀ entry ∈ elementsOf (root.nodesAt (pathBelow root s.1)),
      s.2.same entry entry = true)
    (hlegible : ∀ s ∈ keptSections, ∀ entry ∈ elementsOf ((m.regrown x root).nodesAt (pathBelow root s.1)),
      s.2.isLegible entry = true)
    (htail : ∀ s ∈ keptSections,
      carriedBlock s.2.same (x.nodesAt s.1) (root.nodesAt (pathBelow root s.1)) = [] ∨
        leadingComments (root.nodesAt (pathBelow root s.1)) = []) :
    ∃ markup', qualify [] none 0 (m.regrown read root).toNode = some (markup', 0) ∧
      markup'.bare = markup.bare := by
  have hparts := keptSections_part hcrossing
  rw [regrown_reread hcrossing hloaded hsame]
  refine Xml.exists_qualify_withSections ?_ (List.forall_mem_map.mpr fun a ha => ?_) h.written
  · exact List.pairwise_map.mpr (Document.pairwise_grownSections hparts)
  obtain ⟨s, hs, hgrown⟩ := List.mem_filterMap.mp ha
  obtain ⟨nodes, hnodes, rfl⟩ := Option.map_eq_some_iff.mp hgrown
  have hsome := Document.isSome_grown?_again (isSome_sectionAt?_reread hcrossing hloaded hsame hs)
  rw [hnodes] at hsome
  obtain ⟨nodes₀, hnodes₀⟩ := Option.isSome_iff_exists.mp hsome.symm
  have hchildren := children_regrown (m := m) (x := x) hcrossing hs
  rw [hnodes₀] at hchildren
  obtain ⟨o, ho, hochildren⟩ := Option.map_eq_some_iff.mp hchildren
  rw [Document.eq_carriedInto_of_grown? hnodes₀] at hochildren
  have hown : elementsOf ((m.regrown x root).nodesAt (pathBelow root s.1)) = o.elements := by
    rw [Element.nodesAt, ho]
    rfl
  obtain ⟨o', ho', hexchangeable⟩ := h.exists_exchangeable hwhite htext ho
    (hself s hs) hochildren (hown ▸ hlegible s hs) (htail s hs)
  rw [Document.eq_carriedInto_of_grown? hnodes, Document.nodesAt_of_root hloaded, pathBelow_congr
    ((Element.name_of_same hsame).trans (name_regrown m x root)), Element.nodesAt, ho']
  exact hexchangeable
end

/-! The second run. -/

/--
A template and an existing document that a manifest was made anew from, and what is loaded from the file that
it was saved in.
-/
structure Remade (m : Maintainer) (p : Path) (unit : String) (contents : Contents) (t x read : Document)
    (root : Element) (w : World) : Prop where
  hasRoot : t.root? = some root
  crossing : root.name ∉ crossingRoots
  ordinary : t.IsOrdinary contents
  name : t.encoding.toUpper = "UTF-8"
  indent : m.style.indent = .unit unit
  white : Markup.isWhite unit = true
  text : isDocumentText unit = true
  tags : (m.madeAnew x t).KeepsTags
  saved : ∃ w₁ w₂, Gives ((m.madeAnew x t).save p m.style) w₁ () w₂ ∧ w.tree = w₂.tree
  loaded : ∃ w₁, Gives (Document.load p) w read w₁

theorem isOrdinary_madeAnew {m : Maintainer} {contents : Contents} {t x : Document} {root : Element}
    (hcrossing : root.name ∉ crossingRoots) (hroot : t.root? = some root) (hordinary : t.IsOrdinary contents)
    (hknown : knownAll [] (m.madeAnew x t).nodes) : (m.madeAnew x t).IsOrdinary contents := by
  have hknown := Document.known_root hknown (root?_madeAnew hcrossing hroot)
  rw [madeAnew_eq_withRoot hcrossing hroot]
  exact hordinary.withRoot hroot (Xml.ordinary_of_known _ hknown) (name_regrown m x root)

namespace Remade

section
variable {m : Maintainer} {p : Path} {template unit : String} {contents : Contents} {t x read : Document}
  {root : Element} {w : World} (h : m.Remade p unit contents t x read root w)
include h

theorem encoding (existing : Document) : (m.madeAnew existing t).encoding.toUpper = "UTF-8" := by
  rw [encoding_madeAnew h.crossing h.hasRoot, h.name]

theorem isWhite : m.style.indent.isWhite = true := by
  rw [h.indent]
  exact h.white

/-- How what was written is read. -/
theorem exists_rereads :
    ∃ bytes e markup, w.tree.read p = .ok bytes ∧ (m.madeAnew x t).bytes m.style = .ok bytes ∧
      read.root? = some e ∧ calmAll read.nodes ∧ m.Rereads unit (m.regrown x root) e markup := by
  obtain ⟨w₁, w₂, hsave, htree⟩ := h.saved
  obtain ⟨w₃, hload⟩ := h.loaded
  obtain ⟨w₄, hload⟩ := exists_load_of_read_eq hload (congrArg (·.read p) htree.symm)
  obtain ⟨bytes, y, e, markup, laid, hbytes, hreloaded⟩ :=
    (isOrdinary_madeAnew h.crossing h.hasRoot h.ordinary h.tags.known).reloaded h.tags.known h.tags.settled
      (h.encoding x) h.isWhite hsave hload
  obtain ⟨bytes', hbytes', hreplaced⟩ := Document.gives_save hsave
  obtain rfl : bytes' = bytes := Except.ok.inj (hreplaced.read.symm.trans hbytes)
  have hwritten : (m.madeAnew x t).root? = some (m.regrown x root) := root?_madeAnew h.crossing h.hasRoot
  obtain rfl := Option.some.inj (hwritten.symm.trans hreloaded.saved)
  have hknown := Document.known_root h.tags.known hwritten
  have hsettled := h.tags.settled
  have hunnumbered := h.tags.unnumbered
  obtain ⟨n, hn⟩ := hreloaded.written
  rw [Document.isUnnumbered, hwritten, Option.all_some, hn, Option.all_some, beq_iff_eq] at hunnumbered
  rw [Document.isSettled, hwritten, Option.all_some] at hsettled
  have happlied := hreloaded.applied
  rw [h.indent, apply_unit h.text] at happlied
  obtain rfl := Except.ok.inj happlied
  have hread := hreloaded.read
  rw [Markup.laid_indent] at hread
  exact ⟨bytes', e, markup, htree ▸ hbytes, hbytes', hreloaded.loaded, hreloaded.calm, hknown, hsettled,
    hunnumbered ▸ hn, hread, hreloaded.same,
    settled_of_same hreloaded.same (Xml.ordinary_of_known _ hknown) (m.settled_settled _)⟩

variable (ht : readText template (some (templateSource p)) = .ok t)
  (hself : ∀ s ∈ keptSections, ∀ entry ∈ t.entriesAt s.1, s.2.same entry entry = true)
  (hlegible : ∀ s ∈ keptSections, ∀ entry ∈ (m.madeAnew x t).entriesAt s.1, s.2.isLegible entry = true)
include ht hself hlegible

/--
Where nothing was carried behind comments, a second run succeeds on the file that the first one left, and
leaves it as it is.
-/
theorem exists_again
    (htail : ∀ s ∈ keptSections, carriedBlock s.2.same (x.nodesAt s.1) (t.nodesAt s.1) = [] ∨
      leadingComments (t.nodesAt s.1) = []) :
    ∃ d' w', Gives (m.regenerate p template) w d' w' ∧ w'.tree.read p = w.tree.read p := by
  obtain ⟨bytes, e, markup, hread, hbytes, hloaded, -, hrereads⟩ := h.exists_rereads
  obtain ⟨w₁, w₂, hsave, htree⟩ := h.saved
  obtain ⟨w₃, hload⟩ := h.loaded
  have hwritten : (m.madeAnew x t).root? = some (m.regrown x root) := root?_madeAnew h.crossing h.hasRoot
  simp only [← Document.elementsOf_nodesAt, Document.nodesAt_of_root h.hasRoot,
    Document.nodesAt_of_root hwritten, pathBelow_congr (name_regrown m x root)] at hself hlegible htail
  -- how the root is written when it has grown again
  obtain ⟨markup', hmarkup', hbare⟩ := exists_qualify_regrown h.crossing hloaded hrereads.same hrereads
    h.white h.text hself hlegible htail
  have hlaid : (markup'.indent unit 1).laid 0 = (markup.indent unit 1).laid 0 := by
    rw [Markup.laid_indent, Markup.laid_indent]
    exact Markup.indent_eq_of_bare unit (Xml.sound_qualify isSound_nil _ hmarkup')
      (Xml.sound_qualify isSound_nil _ hrereads.written) hbare 1
  have happly : ∀ mk : Markup, m.style.indent.apply mk = .ok (mk.indent unit 1) := fun mk => by
    rw [h.indent, apply_unit h.text]
  have hcommon : ((m.madeAnew x t).encoding.toUpper, .utf8) ∈ Text.commonNames := by
    rw [h.encoding x]
    exact List.mem_cons_self
  have hagain := Document.bytes_withRoot_of_laid (Text.Encoding.named?_of_common hcommon).1 hbytes hwritten
    hrereads.written (happly markup) hmarkup' (happly markup') hlaid
  rw [madeAnew_eq_withRoot h.crossing h.hasRoot, Document.withRoot_withRoot,
    ← madeAnew_eq_withRoot h.crossing h.hasRoot] at hagain
  -- the run, and the file after it
  have hresave : ∀ w₄ : World, w₄.tree = w.tree → ∃ w₅, Gives ((m.madeAnew read t).save p m.style) w₄ () w₅ ∧
      w₅.tree.read p = w₄.tree.read p := fun w₄ htree₄ =>
    Document.gives_save_again hsave (htree ▸ hread) hagain (htree₄.trans htree)
  obtain ⟨w', hsecond⟩ := exists_regenerate ht h.hasRoot hload hloaded fun w₄ hw₄ => by
    obtain ⟨w₅, hgives, -⟩ := hresave w₄ hw₄
    exact ⟨w₅, hgives⟩
  refine ⟨_, w', hsecond, ?_⟩
  obtain ⟨-, w₄, w₅, htree₄, hsave', htree₅⟩ := gives_regenerate_madeAnew ht hload hsecond
  obtain ⟨w₆, hgives, hfile⟩ := hresave w₄ htree₄
  obtain ⟨-, rfl⟩ := hgives.unique hsave'
  rw [htree₅, hfile, htree₄]

/-- If a second run leaves the file as it is, nothing was carried behind comments. -/
theorem leadingComments_eq_nil {d' : Document} {w' : World} (hagain : Gives (m.regenerate p template) w d' w')
    (hfile : w'.tree.read p = w.tree.read p) :
    ∀ s ∈ keptSections, carriedBlock s.2.same (x.nodesAt s.1) (t.nodesAt s.1) = [] ∨
      leadingComments (t.nodesAt s.1) = [] := by
  obtain ⟨-, e, -, -, -, hloaded, hcalm, -⟩ := h.exists_rereads
  obtain ⟨w₁, w₂, hsave, htree⟩ := h.saved
  obtain ⟨w₃, hload⟩ := h.loaded
  obtain ⟨-, w₄, w₅, -, hsave', htree₅⟩ := gives_regenerate_madeAnew ht hload hagain
  -- what is loaded can be carried from
  obtain ⟨bytes, hbytes, hread, -⟩ := gives_load hload
  obtain ⟨contents', -, hcontents⟩ := exists_contents_of_readBytes hread
  have htop : ∀ top ∈ read.root?, top.toNode.ordinary := fun top htop =>
    ((hcontents.isOrdinary_of_calm hcalm).root htop).1
  have hordinary : (m.madeAnew read t).IsOrdinary contents :=
    (h.ordinary.keepingAll htop _ (by decide)).settled m
  -- it is the same as both documents that were saved
  obtain ⟨w₆, hload₁⟩ := exists_load_of_read_eq hload (congrArg (·.read p) htree.symm)
  obtain ⟨w₇, hload₂⟩ := exists_load_of_read_eq hload ((congrArg (·.read p) htree₅.symm).trans hfile)
  have hsame₁ := ((isOrdinary_madeAnew h.crossing h.hasRoot h.ordinary h.tags.known).exists_load_iff
    (h.encoding x) h.isWhite hsave).2 read w₆ hload₁
  have hsame₂ := (hordinary.exists_load_iff (h.encoding read) h.isWhite hsave').2 read w₇ hload₂
  intro s hs
  have hsection₁ := Document.sameNodes_nodesAt hsame₁ s.1
  have hsection₂ := Document.sameNodes_nodesAt hsame₂ s.1
  rw [nodesAt_madeAnew h.crossing h.hasRoot hs] at hsection₁ hsection₂
  refine leadingComments_eq_nil_of_same ?_ ?_ hsection₁ hsection₂
  · rw [t.elementsOf_nodesAt]
    exact hself s hs
  · have hall := hlegible s hs
    rw [← Document.elementsOf_nodesAt, nodesAt_madeAnew h.crossing h.hasRoot hs,
      m.elementsOf_settledChildren] at hall
    exact List.forall_mem_map.mp hall

end

end Remade

end Maintainer

/-- A template with one property. -/
def oneOwnProperty : String :=
  "<a><properties><b/></properties></a>"

/-- A manifest with one property. -/
def oneProperty : String :=
  "<a><properties><d/></properties></a>"

/-- A template with a comment below the last property. -/
def notedTemplate : String :=
  "<a><properties><b/><!--c--></properties></a>"

end Manifest
