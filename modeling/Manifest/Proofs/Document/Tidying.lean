import Manifest.Proofs.Document.Collapsed
import Manifest.Proofs.Document.FixedPoint
import Manifest.Proofs.Document.Stored
import Manifest.Proofs.Maintenance.Resettling
import Manifest.Proofs.Maintenance.Sections

/-! Tidying a text: it is read, its leaves are put on one line, and it is written again. Whether it gets a
declaration is decided by how the text begins, which is not always what was read of it. -/

set_option autoImplicit false

namespace Manifest

open Xml (Contents Markup)

/-- A document with its leaves on one line, if it has a root. -/
def Document.collapsed (d : Document) : Document :=
  (d.root?.map fun root => d.withRoot root.collapse).getD d

/-- How a text is laid out when it is tidied. -/
def tidyStyle (text : String) (indent : Indent) : Style :=
  { indent := indent, declaration := opensWithDeclaration text }

theorem tidyText_eq_ok {text : String} {indent : Indent} {s : String} :
    tidyText text indent = .ok s ↔ ∃ d, readText text (some tidySource) = .ok d ∧
      d.collapsed.render (tidyStyle text indent) = .ok s := by
  rw [tidyText]
  constructor
  · intro h
    split at h
    · cases h
    · next d hread =>
      dsimp only at h
      split at h
      · cases h
      · next s' hrender =>
        cases h
        exact ⟨d, hread, hrender⟩
  · rintro ⟨d, hread, hrender⟩
    rw [hread]
    dsimp only
    rw [show ((d.root?.map fun root => d.withRoot root.collapse).getD d).render
      { indent := indent, declaration := opensWithDeclaration text } = .ok s from hrender]

@[simp] theorem Document.doctype_collapsed (d : Document) : d.collapsed.doctype = d.doctype := by
  rw [collapsed]
  cases d.root? <;> rfl

@[simp] theorem Document.encoding_collapsed (d : Document) : d.collapsed.encoding = d.encoding := by
  rw [collapsed]
  cases d.root? <;> rfl

/-! The declaration. -/

theorem opensDeclaration_render {d : Document} {type : Option (Xml.Doctype × String)}
    (hdoctype : d.doctype = type.map fun x => x.1.render x.2) {style : Style} {s : String}
    (hs : d.render style = .ok s) : Xml.opensDeclaration s.toList = style.declaration := by
  obtain ⟨before, root, after, -, hchars, helement, hsound, hremarks, -⟩ := render_eq_written hdoctype hs
  rw [hchars, Xml.opensDeclaration_writtenChars hremarks (isElement_laid helement 0)
    (Markup.sound_laid root hsound 0), Document.declared]
  cases style.declaration <;> rfl

/-- A tidied text begins with a declaration if the text looked like one that does. -/
theorem opensDeclaration_tidyText {text : String} {indent : Indent} {s : String}
    (h : tidyText text indent = .ok s) : Xml.opensDeclaration s.toList = opensWithDeclaration text := by
  obtain ⟨d, hread, hrender⟩ := tidyText_eq_ok.mp h
  obtain ⟨contents, -, rfl⟩ := readText_eq_ok hread
  refine @opensDeclaration_render _ (contents.doctype.map fun type =>
    (type, ((elementsOf contents.nodes).head?.map Element.name).getD "")) ?_ _ _ hrender
  rw [Document.doctype_collapsed, documentOf, Option.map_map]
  rfl

/--
A tidied text begins with a declaration exactly when the text had one, except that a declaration behind a
byte order mark is lost, and that one is made up for a text that begins like one without having any.
-/
theorem opensDeclaration_tidyText_iff {text : String} {contents : Contents}
    (hcontents : Xml.readDocument text.toList = some contents) (indent : Indent) :
    (∃ s, tidyText text indent = .ok s ∧
        (Xml.opensDeclaration s.toList = true ↔ contents.declaration.isSome = true)) ↔
      (∃ s, tidyText text indent = .ok s) ∧
        (contents.declaration.isSome = true → text.toList.head? ≠ some Xml.byteOrderMark) ∧
        (contents.declaration = none → opensWithDeclaration text = false) := by
  constructor
  · rintro ⟨s, hs, hiff⟩
    rw [opensDeclaration_tidyText hs] at hiff
    refine ⟨⟨s, hs⟩, fun hsome => ?_, fun hnone => ?_⟩
    · exact (opensWithDeclaration_of_declared hcontents hsome).mp (hiff.mpr hsome)
    · rw [hnone] at hiff
      exact eq_false_of_ne_true fun hopens => by cases hiff.mp hopens
  · rintro ⟨⟨s, hs⟩, hmark, hopens⟩
    refine ⟨s, hs, ?_⟩
    rw [opensDeclaration_tidyText hs]
    cases hdeclaration : contents.declaration with
    | none => rw [hopens hdeclaration]; rfl
    | some declaration =>
      have hsome : contents.declaration.isSome = true := by rw [hdeclaration]; rfl
      rw [opensWithDeclaration_of_declared hcontents hsome]
      exact iff_of_true (hmark hsome) rfl

def declaredLeaf : String := "<?xml version='1.0'?><a> x </a>"

set_option maxRecDepth 10000 in
theorem opensDeclaration_tidyText_declaredLeaf :
    ∃ contents, Xml.readDocument declaredLeaf.toList = some contents ∧
      ∃ s, tidyText declaredLeaf = .ok s ∧
        (Xml.opensDeclaration s.toList = true ↔ contents.declaration.isSome = true) := by
  obtain ⟨contents, hcontents⟩ := Option.isSome_iff_exists.mp
    (show (Xml.readDocument declaredLeaf.toList).isSome = true by decide +kernel)
  have hsome : ((Xml.readDocument declaredLeaf.toList).bind (·.declaration)).isSome = true := by
    decide +kernel
  rw [hcontents, Option.bind_some] at hsome
  refine ⟨contents, hcontents, (opensDeclaration_tidyText_iff hcontents _).mpr
    ⟨⟨_, eq_ok_getD (tidyText declaredLeaf) "" (by decide +kernel)⟩, fun _ => by decide, fun hnone => ?_⟩⟩
  rw [hnone] at hsome
  cases hsome

/-- A text that begins with an instruction whose target begins like the word of a declaration. -/
def styledLeaf : String := "<?xml-stylesheet href='x'?><a/>"

set_option maxRecDepth 10000 in
/-- It has no declaration, and gets one. -/
theorem styledLeaf_gets_declaration :
    ∃ contents, Xml.readDocument styledLeaf.toList = some contents ∧ contents.declaration = none ∧
      ∃ s, tidyText styledLeaf = .ok s ∧ Xml.opensDeclaration s.toList = true := by
  obtain ⟨contents, hcontents⟩ := Option.isSome_iff_exists.mp
    (show (Xml.readDocument styledLeaf.toList).isSome = true by decide +kernel)
  have hnone : ((Xml.readDocument styledLeaf.toList).bind (·.declaration)) = none := by decide +kernel
  rw [hcontents, Option.bind_some] at hnone
  have hs := eq_ok_getD (tidyText styledLeaf) "" (by decide +kernel)
  exact ⟨contents, hcontents, hnone, _, hs, (opensDeclaration_tidyText hs).trans (by decide +kernel)⟩

/-! Tidying once more. -/

/-- An instruction that looks like a declaration has a target that begins like its word. -/
theorem isPrefix_of_renderInstruction {target value : String} {after rest : List Char}
    (h : Markup.renderInstruction target value ++ after = "<?xml".toList ++ rest) :
    "xml".toList <+: target.toList := by
  simp only [Markup.renderInstruction, String.reduceToList, List.cons_append, List.append_assoc,
    List.nil_append, List.cons.injEq, true_and] at h
  match htarget : target.toList with
  | [] => simp [htarget] at h
  | [a] => simp [htarget] at h
  | [a, b] => simp [htarget] at h
  | a :: b :: c :: rest =>
    rw [htarget] at h
    simp only [List.cons_append, List.cons.injEq] at h
    obtain ⟨rfl, rfl, rfl, -⟩ := h
    exact ⟨rest, rfl⟩

/-- What is written without a declaration looks like one with it if its first line is an instruction. -/
theorem Document.WrittenAs.instruction_of_opens {d : Document} {contents : Contents}
    (hd : d.IsOrdinary contents) {style : Style} {before after : List Markup} {root : Markup} {s : String}
    (h : d.WrittenAs contents style before root after s) (hno : style.declaration = false)
    (hopens : opensWithDeclaration s = true) :
    contents.doctype = none ∧ ∃ target value, d.nodes.head? = some (.instruction target value) ∧
      "xml".toList <+: target.toList := by
  obtain ⟨rest, hrest⟩ := opensWithDeclaration_iff.mp hopens
  rw [Text.dropWhile_eq_self (by rw [h.head?_eq]; rintro c ⟨⟩; decide), h.chars, Document.declared, hno,
    if_neg (by simp), Xml.writtenChars, Xml.declarationChars, Option.map_none, Option.getD_none,
    List.nil_append] at hrest
  cases hdoctype : contents.doctype with
  | some type =>
    rw [Document.typed, hdoctype, Option.map_some, Xml.doctypeChars, Option.map_some, Option.getD_some,
      Xml.toList_render] at hrest
    simp at hrest
  | none =>
    refine ⟨rfl, ?_⟩
    rw [Document.typed, hdoctype, Option.map_none, Xml.doctypeChars, Option.map_none, Option.getD_none,
      List.nil_append] at hrest
    cases before with
    | nil =>
      have hstart := Xml.startsTag_renderAt (isElement_laid h.isElement 0)
        (Markup.sound_laid root h.sound 0) (['\n'] ++ after.flatMap Xml.lineOf)
      obtain ⟨c, more, hmore, hc⟩ := Xml.startsTag_eq_true hstart
      rw [List.flatMap_nil, List.nil_append, Xml.lineOf, List.append_assoc, hmore] at hrest
      obtain rfl : c = '?' := (List.cons.inj (List.cons.inj hrest).2).1
      exact absurd hc (by decide)
    | cons m ms =>
      have hread := h.read
      have hremark := (h.front m List.mem_cons_self).1
      cases m with
      | comment value => simp [Xml.lineOf, Markup.renderAt, Markup.renderComment] at hrest
      | instruction target value =>
        rw [List.cons_append, Xml.Markup.readAll] at hread
        obtain ⟨node, more, hdrop, ⟨rfl, -⟩, -⟩ := hread
        have hhead : d.nodes.head? = some (.instruction target value) := by
          cases hnodes : d.nodes with
          | nil =>
            rw [hnodes] at hdrop
            cases hdrop
          | cons first rest =>
            have hfirst : first.isBlank = false := by
              have htext := hd.noText first (by rw [hnodes]; exact List.mem_cons_self)
              cases first <;> first | rfl | cases htext
            rw [hnodes, List.dropWhile_cons_of_neg (by simp [hfirst])] at hdrop
            rw [(List.cons.inj hdrop).1]
            rfl
        rw [List.flatMap_cons, Xml.lineOf, Markup.renderAt, List.append_assoc, List.append_assoc] at hrest
        exact ⟨target, value, hhead, isPrefix_of_renderInstruction hrest⟩
      | _ => cases hremark

namespace Document

theorem nodes_collapsed {d : Document} {root : Element} (h : elementsOf d.nodes = [root]) :
    d.collapsed.nodes = d.nodes.map Node.collapse := by
  have hself : ∀ nodes : List Node, elementsOf nodes = [] → nodes.map Node.collapse = nodes := by
    intro nodes hnodes
    refine (List.map_congr_left fun node hn => ?_).trans (List.map_id nodes)
    have hnone := List.filterMap_eq_nil_iff.mp hnodes node hn
    cases node <;> first | rfl | cases hnone
  have hset : ∀ nodes : List Node, elementsOf nodes = [root] →
      setFirstElement root.collapse nodes = nodes.map Node.collapse := by
    intro nodes hnodes
    induction nodes with
    | nil => rfl
    | cons node rest ih =>
      cases node with
      | element tag children =>
        rw [elementsOf_element_cons, List.cons.injEq] at hnodes
        obtain ⟨rfl, hrest⟩ := hnodes
        rw [List.map_cons, hself rest hrest, collapse_element, setFirstElement, Element.collapse_eq]
        rfl
      | _ => exact congrArg (_ :: ·) (ih hnodes)
  rw [collapsed, root?, h]
  exact hset d.nodes h

variable {d : Document} {contents : Contents}

theorem IsOrdinary.collapsed (hd : d.IsOrdinary contents) : d.collapsed.IsOrdinary contents := by
  obtain ⟨root, hroot⟩ := hd.exists_root
  rw [Document.collapsed, hroot]
  refine hd.withRoot hroot ?_ root.name_collapse
  rw [Element.toNode_collapse]
  exact shape_ordinary.node_collapse root.toNode (hd.root hroot).1

/-- A document whose leaves are on one line is collapsed as it is. -/
theorem collapsed_of_same {d' : Document} (hd : d.IsOrdinary contents) {root root' : Element}
    (hroot : d.collapsed.root? = some root) (hroot' : d'.root? = some root')
    (hsame : root'.toNode.same root.toNode = true) : d'.collapsed = d' := by
  have hordinary := (hd.collapsed.root hroot).1
  have hfixed : root.toNode.collapse = root.toNode := by
    obtain ⟨r, hr⟩ := hd.exists_root
    rw [Document.collapsed, hr, Option.map_some, Option.getD_some,
      root?_withRoot d r.collapse (by rw [hr]; rfl), Option.some.injEq] at hroot
    rw [← hroot, Element.toNode_collapse, Node.collapse_collapse]
  have hsettled := Node.collapse_of_same root'.toNode root.toNode hsame hordinary hfixed
  have hself : root'.collapse = root' := by
    rw [Element.toNode, collapse_element, Node.element.injEq] at hsettled
    rw [Element.collapse_eq, hsettled.2]
  rw [Document.collapsed, hroot', Option.map_some, Option.getD_some, hself, withRoot_self hroot']

/-- So is what is read of a document whose leaves were put on one line. -/
theorem WrittenAs.collapsed_reread (hd : d.IsOrdinary contents) {style : Style} {before after : List Markup}
    {root : Markup} {s : String} (h : d.collapsed.WrittenAs contents style before root after s)
    (hsteady : Xml.Markup.steadyAll [] none [] (before ++ root.laid 0 :: after)) :
    (d.collapsed.reread contents style before root after s).collapsed =
      d.collapsed.reread contents style before root after s := by
  obtain ⟨r, hr⟩ := hd.collapsed.exists_root
  obtain ⟨e, he, hnone, hnodes⟩ := h.nodes_reread hsteady
  have hread := h.readRoot r hr
  have hsame := Markup.same_of_readsAs (root.laid 0) hread
  rw [Markup.unified_of_readsAs _ hread, he] at hsame
  refine collapsed_of_same hd hr ?_ hsame
  rw [root?, hnodes, elementsOf_append, hnone, elementsOf_toNode_cons]
  rfl

end Document

theorem opensWithDeclaration_tidyText {text : String} {d : Document} {contents : Contents}
    (hread : readText text (some tidySource) = .ok d)
    (hcontents : Xml.readDocument text.toList = some contents)
    (hmark : text.toList.head? ≠ some Xml.byteOrderMark) (hsubset : contents.withoutSubset)
    {indent : Indent} {s : String} (hs : tidyText text indent = .ok s) {before after : List Markup}
    {root : Markup} (hwritten : d.collapsed.WrittenAs contents (tidyStyle text indent) before root after s) :
    opensWithDeclaration s = opensWithDeclaration text := by
  have hd := (Document.HasRead.text hread hcontents).isOrdinary hsubset
  cases hopens : opensWithDeclaration text with
  | true => exact opensWithDeclaration_of_opensDeclaration ((opensDeclaration_tidyText hs).trans hopens)
  | false =>
    rw [← Bool.not_eq_true]
    intro hopens'
    obtain ⟨hdoctype, target, value, hfirst, htarget⟩ :=
      hwritten.instruction_of_opens hd.collapsed hopens hopens'
    obtain ⟨r, helements, -⟩ := hd.oneRoot
    rw [Document.nodes_collapsed helements, List.head?_map] at hfirst
    obtain ⟨node, hnode, hcollapse⟩ := Option.map_eq_some_iff.mp hfirst
    have hsame : node = .instruction target value := by
      cases node with
      | element tag children =>
        rw [collapse_element] at hcollapse
        cases hcollapse
      | _ => exact hcollapse
    obtain ⟨contents', hcontents', rfl⟩ := readText_eq_ok hread
    rw [hcontents] at hcontents'
    cases hcontents'
    rw [hsame] at hnode
    have hfound : opensWithDeclaration text = true := by
      cases hdeclaration : contents.declaration with
      | none =>
        exact opensWithDeclaration_of_instruction hmark hcontents hdeclaration hdoctype hnode htarget
      | some declaration =>
        exact (opensWithDeclaration_of_declared hcontents (by rw [hdeclaration]; rfl)).mpr hmark
    rw [hopens] at hfound
    cases hfound

theorem isEncodingName_of_declared {text : String} {source : Option String} {d : Document}
    {contents : Contents} (hread : readText text source = .ok d)
    (hcontents : Xml.readDocument text.toList = some contents)
    (hmark : text.toList.head? ≠ some Xml.byteOrderMark) {declaration : Xml.Declaration}
    (hdeclaration : contents.declaration = some declaration) :
    Xml.isEncodingName d.encoding.toList = true := by
  obtain ⟨contents', hcontents', rfl⟩ := readText_eq_ok hread
  obtain ⟨hnames, -⟩ := Xml.readLines_front (Text.not_mem_unifyLineEnds _) hcontents
  rw [documentOf]
  dsimp only
  rw [namedEncoding?_of_contents hcontents hdeclaration hmark]
  cases hname : declaration.encoding with
  | none =>
    rw [Option.map_none, Option.getD_none, String.toList_ofList]
    decide
  | some name =>
    rw [Option.map_some, Option.getD_some, String.toList_ofList]
    exact hnames declaration hdeclaration name hname

/-- When a tidied text can be read. -/
theorem canBeRead_collapsed_iff {text : String} {source : Option String} {d : Document}
    {contents : Contents} (hread : readText text source = .ok d)
    (hcontents : Xml.readDocument text.toList = some contents)
    (hmark : text.toList.head? ≠ some Xml.byteOrderMark) (indent : Indent) :
    d.collapsed.CanBeRead contents (tidyStyle text indent) ↔
      (∀ type ∈ contents.doctype, type.id.isComplete = true) ∧
        (contents.declaration = none → opensWithDeclaration text = true →
          Xml.isEncodingName d.encoding.toList = true) := by
  have hhas : d.HasRead contents := .text hread hcontents
  constructor
  · intro h
    exact ⟨h.doctype, fun _ hopens => d.encoding_collapsed ▸ h.encoding hopens⟩
  · rintro ⟨htype, hname⟩
    refine ⟨htype, fun hopens => ?_, ?_⟩
    · rw [d.encoding_collapsed]
      cases hdeclaration : contents.declaration with
      | none => exact hname hdeclaration hopens
      | some declaration => exact isEncodingName_of_declared hread hcontents hmark hdeclaration
    · have hdepth := hhas.depth_le
      obtain ⟨cs, encoding, hread', -, rfl⟩ := hhas.documentOf_eq
      obtain ⟨-, root, helements⟩ := Xml.rooted_readDocument hread'
      rwa [@Document.nodes_collapsed (documentOf contents encoding) root helements, depthOf_map_collapse]

/--
A tidied text is tidied as it is, to the letter, exactly when it can be read at all, provided that the tags
of what is written are settled and no mark stands in front. So a document type with a public identifier has
a system identifier as well, and where a text is taken for one with a declaration without having any, the
name that was found can stand in the declaration that is made up for it.
-/
theorem tidyText_again_iff {text : String} {d : Document} {contents : Contents}
    (hread : readText text (some tidySource) = .ok d)
    (hcontents : Xml.readDocument text.toList = some contents)
    (hmark : text.toList.head? ≠ some Xml.byteOrderMark) (hsubset : contents.withoutSubset)
    (hsettled : d.collapsed.isSettled = true) {indent : Indent} (hwhite : indent.isWhite = true) :
    (∃ s, tidyText text indent = .ok s ∧ tidyText s indent = .ok s) ↔
      (∃ s, tidyText text indent = .ok s) ∧ (∀ type ∈ contents.doctype, type.id.isComplete = true) ∧
        (contents.declaration = none → opensWithDeclaration text = true →
          Xml.isEncodingName d.encoding.toList = true) := by
  have hhas : d.HasRead contents := .text hread hcontents
  have hd := hhas.isOrdinary hsubset
  have hD := hd.collapsed
  obtain ⟨root, helements, -⟩ := hd.oneRoot
  have hnodes := Document.nodes_collapsed helements
  have hknown : knownAll [] d.collapsed.nodes := by
    rw [hnodes]
    exact knownAll_map_collapse _ (hhas.known hsubset)
  rw [← canBeRead_collapsed_iff hread hcontents hmark indent]
  -- what is written once
  have honce : ∀ s, tidyText text indent = .ok s → d.collapsed.render (tidyStyle text indent) = .ok s := by
    intro s hs
    obtain ⟨d₀, hread₀, hrender⟩ := tidyText_eq_ok.mp hs
    rw [hread] at hread₀
    cases hread₀
    exact hrender
  constructor
  · rintro ⟨s, hs, hagain⟩
    refine ⟨⟨s, hs⟩, ?_⟩
    obtain ⟨before, laid, after, hwritten⟩ := hD.render_eq hwhite (honce s hs)
    by_contra hno
    obtain ⟨d', hread', -⟩ := tidyText_eq_ok.mp hagain
    rw [(hwritten.readText_eq hD _).2 hno] at hread'
    cases hread'
  · rintro ⟨⟨s, hs⟩, hcan⟩
    have hrender := honce s hs
    obtain ⟨before, laid, after, hwritten⟩ := hD.render_eq hwhite hrender
    have hsteady := hD.steady_markup hknown hsettled hwhite hwritten.markup
    refine ⟨s, hs, tidyText_eq_ok.mpr ⟨_, (hwritten.readText_eq hD _).1 hcan, ?_⟩⟩
    have hstyle : tidyStyle s indent = tidyStyle text indent := by
      rw [tidyStyle, tidyStyle, opensWithDeclaration_tidyText hread hcontents hmark hsubset hs hwritten]
    rw [hwritten.collapsed_reread hd hsteady, hstyle]
    exact hwritten.render_reread hD hwhite hsteady hcan hrender

def typedLeaf : String := "<!DOCTYPE a><a><b> x </b><c/></a>"

set_option maxRecDepth 10000 in
theorem tidyText_again_typedLeaf :
    ∃ d contents, readText typedLeaf (some tidySource) = .ok d ∧
      Xml.readDocument typedLeaf.toList = some contents ∧
      typedLeaf.toList.head? ≠ some Xml.byteOrderMark ∧ contents.withoutSubset ∧
      d.collapsed.isSettled = true ∧
      ∃ s, tidyText typedLeaf = .ok s ∧ tidyText s = .ok s := by
  have hread := eq_ok_getD (readText typedLeaf (some tidySource)) {} (by decide +kernel)
  obtain ⟨contents, hcontents, -⟩ := readText_eq_ok hread
  have hmark : typedLeaf.toList.head? ≠ some Xml.byteOrderMark := by decide
  have htypes : ((Xml.readDocument typedLeaf.toList).bind (·.doctype)).all
      (fun type => !type.hasSubset && type.id.isComplete) = true := by decide +kernel
  rw [hcontents, Option.bind_some] at htypes
  have htype : ∀ type ∈ contents.doctype, type.hasSubset = false ∧ type.id.isComplete = true := by
    intro type htype
    rw [Option.mem_def.mp htype, Option.all_some, Bool.and_eq_true, Bool.not_eq_true'] at htypes
    exact htypes
  have hsubset : contents.withoutSubset := fun type h => (htype type h).1
  have hsettled : ((readText typedLeaf (some tidySource)).toOption.getD {}).collapsed.isSettled = true := by
    decide +kernel
  refine ⟨_, contents, hread, hcontents, hmark, hsubset, hsettled,
    (tidyText_again_iff hread hcontents hmark hsubset hsettled rfl).mpr
      ⟨⟨_, eq_ok_getD (tidyText typedLeaf) "" (by decide +kernel)⟩, fun type h => (htype type h).2,
        fun _ hopens => ?_⟩⟩
  exact absurd hopens (by decide +kernel)

/-- A text whose document type has a public identifier and an empty system identifier. -/
def halfTyped : String := "<!DOCTYPE a PUBLIC \"p\" \"\"><a/>"

set_option maxRecDepth 10000 in
/-- It is tidied once, and what is written cannot be read. -/
theorem halfTyped_not_tidied_again :
    halfTyped.toList.head? ≠ some Xml.byteOrderMark ∧
      (∃ contents, Xml.readDocument halfTyped.toList = some contents ∧ contents.withoutSubset) ∧
      ∃ s, tidyText halfTyped = .ok s ∧ ¬ ∃ s', tidyText s = .ok s' := by
  obtain ⟨contents, hcontents⟩ := Option.isSome_iff_exists.mp
    (show (Xml.readDocument halfTyped.toList).isSome = true by decide +kernel)
  have htypes : ((Xml.readDocument halfTyped.toList).bind (·.doctype)).all (fun type => !type.hasSubset) =
      true := by decide +kernel
  rw [hcontents, Option.bind_some] at htypes
  refine ⟨by decide, ⟨contents, hcontents, fun type h => ?_⟩, _,
    eq_ok_getD (tidyText halfTyped) "" (by decide +kernel), fun ⟨s', hs'⟩ => ?_⟩
  · rw [Option.mem_def.mp h, Option.all_some, Bool.not_eq_true'] at htypes
    exact htypes
  · have hnone : (tidyText ((tidyText halfTyped).toOption.getD "")).toOption.isSome = false := by
      decide +kernel
    rw [hs'] at hnone
    cases hnone

end Manifest
