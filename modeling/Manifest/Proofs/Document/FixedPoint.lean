import Manifest.Proofs.Document.Declared
import Manifest.Proofs.Document.RoundTrip
import Manifest.Proofs.Merge.Block
import Manifest.Proofs.Xml.Settled

/-! Writing what was read once more. What a document that was read is written as is written again, to
the letter, when it is read again, provided that its tags are settled. -/

set_option autoImplicit false

namespace Manifest

open Xml (Contents Markup)
open Xml.Markup (steadyAll resolveAll unifiedAll)

/-- Whether all tags of a document are settled. -/
def Document.isSettled (d : Document) : Bool :=
  d.root?.all fun root => root.toNode.settled [] none 0

/--
The tags of a document that was read need no more declarations than there are, unless an entity brought
other line ends into it.
-/
theorem Document.HasRead.known_of_calm {contents : Contents} {d : Document} (h : d.HasRead contents)
    (hcalm : calmAll d.nodes) : knownAll [] d.nodes :=
  @Xml.knownAll_of_readsIn [] nofun d.nodes h.readsIn hcalm

/-- The tags of a document that was read need no more declarations than there are. -/
theorem Document.HasRead.known {contents : Contents} {d : Document} (h : d.HasRead contents)
    (hsubset : contents.withoutSubset) : knownAll [] d.nodes :=
  h.known_of_calm (h.calm hsubset)

/-- The declaration of a written document names its encoding. -/
theorem namedEncoding?_written {s e : String} {rest : List Char}
    (hs : s.toList = renderDeclaration e ++ rest) (h : Xml.isEncodingName e.toList = true) :
    namedEncoding? s = some e := by
  have hword := isEncodingWord_of_isEncodingName h
  rw [String.ofList_toList] at hword
  have hdeclared := Xml.takeDeclared_renderDeclaration (not_mem_encoding hword).1 rest
  rw [if_pos h, ← hs] at hdeclared
  rw [namedEncoding?_of_declared hdeclared, Option.map_some, String.ofList_toList]

/-! What is written for a document that was read is steady. -/

theorem settledAll_of_isRemark {scope : Xml.Scope} {parent : Option String} {nodes : List Node}
    (h : ∀ node ∈ nodes, node.isRemark = true) (next : Nat) :
    settledAll scope parent next nodes = true := by
  induction nodes generalizing next with
  | nil => rfl
  | cons node rest ih =>
    have hnode : node.settled scope parent next = true := by
      have hremark := h node (by simp)
      cases node with
      | element tag children => cases hremark
      | _ => rfl
    rw [settledAll, hnode, Bool.true_and]
    split
    · rfl
    · exact ih (fun x hx => h x (by simp [hx])) _

theorem Document.IsOrdinary.steady_markup {d : Document} {contents : Contents}
    (hd : d.IsOrdinary contents) (hknown : knownAll [] d.nodes) (hsettled : d.isSettled = true)
    {indent : Indent} (hwhite : indent.isWhite = true) {before after : List Markup} {root : Markup}
    (h : d.markup indent = .ok (before, root, after)) :
    steadyAll [] none [] (before ++ root.laid 0 :: after) := by
  obtain ⟨front, e, back, m, n, hsplit, hm, hbefore, hafter, hroot⟩ := markup_eq_ok.mp h
  obtain ⟨hnodes, hfront, hback, -⟩ := hd.split hsplit
  rw [hnodes, knownAll_append] at hknown
  have hremarks : ∀ {nodes : List Node} {ms : List Markup}, (∀ node ∈ nodes, node.isRemark = true) →
      knownAll [] nodes → remarks nodes = .ok ms → steadyAll [] none [] ms := by
    intro nodes ms hnodes hknown hms
    obtain ⟨n', hms⟩ := remarks_eq_ok.mp hms
    rw [List.filter_eq_self.mpr hnodes] at hms
    exact Markup.steadyAll_qualifyNodes Xml.Site.top nodes hknown (settledAll_of_isRemark hnodes 0) hms
  have hsettledRoot : e.toNode.settled [] none 0 = true := by
    have hnone : elementsOf front = [] := by
      rw [List.eq_nil_iff_forall_not_mem]
      intro x hx
      obtain ⟨node, hn, hnode⟩ := List.mem_filterMap.mp hx
      have hremark := hfront node hn
      cases node with
      | element tag children => cases hremark
      | _ => cases hnode
    rwa [Document.isSettled, Document.root?, hnodes, elementsOf_append, hnone] at hsettled
  have hsteady := Markup.steady_qualify Xml.Site.top e.toNode hknown.2.1 hsettledRoot hm
  rw [Markup.steadyAll_append]
  refine ⟨hremarks hfront hknown.1 hbefore, Markup.steady_laid root ?_ 0,
    hremarks hback hknown.2.2 hafter⟩
  rcases apply_eq_ok hwhite hroot with ⟨rfl, -⟩ | ⟨unit, -, -, rfl, -⟩
  · exact hsteady
  · exact Markup.steady_indent m hsteady 1

/-! Steady markup is written again. -/

theorem isRemark_resolve {reading : Xml.Scope} {m : Markup} (h : m.isRemark = true) :
    (m.resolve reading).isRemark = true := by
  cases m with
  | comment value => rfl
  | instruction target value => rfl
  | _ => cases h

theorem remarks_resolve {ms : List Markup} (hms : ∀ m ∈ ms, m.isRemark = true ∧ m.sound = true)
    (h : steadyAll [] none [] ms) : remarks (ms.map (·.resolve [])) = .ok ms := by
  have hsound : Markup.soundAll ms = true := by
    clear h
    induction ms with
    | nil => rfl
    | cons m ms ih =>
      rw [Markup.soundAll_cons]
      refine ⟨(hms m (by simp)).2, fun htext => ?_, ih fun x hx => hms x (by simp [hx])⟩
      rw [Xml.isText_of_isRemark (hms m (by simp)).1] at htext
      cases htext
  have hresolve : ms.map (·.resolve []) = resolveAll [] ms :=
    (resolveAll_eq_map fun m hm => Xml.isText_of_isRemark (hms m hm).1).symm
  rw [remarks_eq_ok]
  refine ⟨0, ?_⟩
  rw [List.filter_eq_self.mpr, hresolve]
  · exact Markup.qualifyNodes_resolveAll ms hsound h 0
  · intro node hn
    obtain ⟨m, hm, rfl⟩ := List.mem_map.mp hn
    exact isRemark_resolve (hms m hm).1

/-- What is read of a document whose markup is steady. -/
theorem Document.WrittenAs.nodes_reread {d : Document} {contents : Contents} {style : Style}
    {before after : List Markup} {root : Markup} {s : String}
    (h : d.WrittenAs contents style before root after s)
    (hsteady : steadyAll [] none [] (before ++ root.laid 0 :: after)) :
    ∃ e : Element, (root.laid 0).resolve [] = e.toNode ∧
      elementsOf (before.map (·.resolve [])) = [] ∧
      (d.reread contents style before root after s).nodes =
        before.map (·.resolve []) ++ e.toNode :: after.map (·.resolve []) := by
  obtain ⟨e, he⟩ : ∃ e : Element, (root.laid 0).resolve [] = e.toNode := by
    have helement := isElement_laid h.isElement 0
    cases hr : root.laid 0 with
    | element name attributes children => exact ⟨⟨_, _⟩, rfl⟩
    | _ => rw [hr] at helement; cases helement
  refine ⟨e, he, ?_, ?_⟩
  · rw [List.eq_nil_iff_forall_not_mem]
    intro x hx
    obtain ⟨node, hn, hnode⟩ := List.mem_filterMap.mp hx
    obtain ⟨m, hm, rfl⟩ := List.mem_map.mp hn
    have hremark : (m.resolve []).isRemark = true := isRemark_resolve (h.front m hm).1
    cases hr : m.resolve [] with
    | element tag children => rw [hr] at hremark; cases hremark
    | _ => rw [hr] at hnode; cases hnode
  · rw [← he, ← List.map_cons, ← List.map_append, ← resolveAll_eq_map h.noText,
      ← Markup.unifiedAll_of_steadyAll _ hsteady]
    rfl

/-- What is read of steady markup is written as it again. -/
theorem Document.WrittenAs.markup_reread {d : Document} {contents : Contents} {style : Style}
    (hwhite : style.indent.isWhite = true) {before after : List Markup} {root : Markup} {s : String}
    (h : d.WrittenAs contents style before root after s)
    (hsteady : steadyAll [] none [] (before ++ root.laid 0 :: after)) :
    ∃ root', (d.reread contents style before root after s).markup style.indent =
      .ok (before, root', after) ∧ root'.laid 0 = root.laid 0 := by
  obtain ⟨front, e, back, m, n, -, hm, -, -, hroot⟩ := markup_eq_ok.mp h.markup
  obtain ⟨root', hagain, hlaid⟩ := apply_laid hwhite (Xml.sound_qualify isSound_nil e.toNode hm) hroot
  obtain ⟨e', he', hnone, hnodes⟩ := h.nodes_reread hsteady
  obtain ⟨hbefore, hsteadyRoot, hafter⟩ := Markup.steadyAll_append.mp hsteady
  refine ⟨root', markup_eq_ok.mpr ⟨_, e', _, root.laid 0, 0, ?_, ?_, remarks_resolve h.front hbefore,
    remarks_resolve h.back hafter, hagain⟩, hlaid⟩
  · rw [hnodes]
    exact splitAtElement_append e' _ (fun x hx => by rw [hnone] at hx; cases hx) rfl
  · rw [← he']
    exact Markup.qualify_resolve (root.laid 0) (Markup.sound_laid root h.sound 0) hsteadyRoot 0

/-- The document that is read again has the document type that was written. -/
theorem Document.WrittenAs.doctype_reread {d : Document} {contents : Contents}
    (hd : d.IsOrdinary contents) {style : Style} {before after : List Markup} {root : Markup}
    {s : String} (h : d.WrittenAs contents style before root after s)
    (hsteady : steadyAll [] none [] (before ++ root.laid 0 :: after))
    (hcan : d.CanBeRead contents style) :
    (d.reread contents style before root after s).doctype = d.doctype := by
  obtain ⟨e, hroot, hdoctype⟩ := hd.oneRoot
  obtain ⟨e', he', hnone, hnodes⟩ := h.nodes_reread hsteady
  have hread := h.readRoot e (by rw [Document.root?, hroot]; rfl)
  have hname : e'.name = e.name := by
    cases hr : root.laid 0 with
    | element name attributes children =>
      rw [hr] at hread he'
      obtain ⟨-, -, tag, nodes, htag, hname, -⟩ := hread
      rw [Markup.resolve] at he'
      rw [Element.name, Element.name, ← (Node.element.inj he').1, (Node.element.inj htag).1]
      exact hname
    | _ =>
      have helement := isElement_laid h.isElement 0
      rw [hr] at helement
      cases helement
  have hhead : (elementsOf (d.reread contents style before root after s).nodes).head?.map
      Element.name = some e.name := by
    rw [hnodes, elementsOf_append, hnone, elementsOf_toNode_cons, ← hname]
    rfl
  rw [hdoctype, Document.reread, documentOf, Document.typed, hroot]
  dsimp only
  rw [Document.reread, documentOf] at hhead
  rw [hhead, Xml.doctypeTrimmed, Option.map_map, Option.map_map]
  cases htype : contents.doctype with
  | none => rfl
  | some type => exact congrArg some (Xml.render_trimmed (hcan.doctype type htype) e.name)

/-- The document that is read again has the encoding that was written. -/
theorem Document.WrittenAs.declared_reread {d : Document} {contents : Contents} {style : Style}
    {before after : List Markup} {root : Markup} {s : String}
    (h : d.WrittenAs contents style before root after s) (hcan : d.CanBeRead contents style) :
    (d.reread contents style before root after s).declared style = d.declared style := by
  rw [Document.declared, Document.declared]
  split
  · next hdeclaration =>
    have hchars := h.chars
    rw [Document.declared, if_pos hdeclaration] at hchars
    have hencoding := namedEncoding?_written (hchars.trans rfl) (hcan.encoding hdeclaration)
    rw [Document.reread, documentOf, hencoding]
    rfl
  · rfl

/-- So the document that is read again is written as what was written. -/
theorem Document.WrittenAs.render_reread {d : Document} {contents : Contents}
    (hd : d.IsOrdinary contents) {style : Style} (hwhite : style.indent.isWhite = true)
    {before after : List Markup} {root : Markup} {s : String}
    (h : d.WrittenAs contents style before root after s)
    (hsteady : steadyAll [] none [] (before ++ root.laid 0 :: after)) (hcan : d.CanBeRead contents style)
    (hs : d.render style = .ok s) :
    (d.reread contents style before root after s).render style = .ok s := by
  obtain ⟨root', hmarkup, hlaid⟩ := h.markup_reread hwhite hsteady
  obtain ⟨before₀, root₀, after₀, hmarkup₀, htext, hchars⟩ := render_eq_ok.mp hs
  rw [h.markup] at hmarkup₀
  cases hmarkup₀
  have hdoctype := h.doctype_reread hd hsteady hcan
  refine render_eq_ok.mpr ⟨before, root', after, hmarkup, ?_, ?_⟩
  · rwa [hdoctype]
  · refine hchars.trans ?_
    rw [h.declared_reread hcan, hdoctype, layoutChars, layoutChars, renderLine_eq, renderLine_eq, hlaid]

/-! The fixed point. -/

/--
What a document that was read is written as can be read and is then written as it is again, to the
letter, exactly when it can be read at all, provided that the tags of the document are settled.
-/
theorem render_readText_iff {d : Document} {contents : Contents} (h : d.HasRead contents)
    (hsubset : contents.withoutSubset) (hsettled : d.isSettled = true) {style : Style}
    (hwhite : style.indent.isWhite = true) {s : String} (hs : d.render style = .ok s)
    (source : Option String) :
    (∃ d', readText s source = .ok d' ∧ d'.render style = .ok s) ↔ d.CanBeRead contents style := by
  have hd := h.isOrdinary hsubset
  obtain ⟨before, root, after, hwritten⟩ := hd.render_eq hwhite hs
  obtain ⟨hread, hnot⟩ := hwritten.readText_eq hd source
  have hsteady := hd.steady_markup (h.known hsubset) hsettled hwhite hwritten.markup
  constructor
  · rintro ⟨d', hread', -⟩
    by_contra hno
    rw [hnot hno] at hread'
    cases hread'
  · intro hcan
    exact ⟨_, hread hcan, hwritten.render_reread hd hwhite hsteady hcan hs⟩

/-- A manifest in which a prefix stands for something else inside an element that needs it. -/
def shadowed : Document :=
  (readText "<p:a xmlns:p=\"u\"><b xmlns:p=\"v\"/></p:a>" none).toOption.getD {}

set_option maxRecDepth 10000 in
/-- A prefix is made up for it when it is written, and it is a declared one when it is read again. -/
theorem render_readText_shadowed :
    ∃ contents s, shadowed.HasRead contents ∧ contents.withoutSubset ∧ shadowed.isSettled = true ∧
      shadowed.render {} = .ok s ∧ ∃ d', readText s none = .ok d' ∧ d'.render {} = .ok s := by
  have hread := eq_ok_getD (readText "<p:a xmlns:p=\"u\"><b xmlns:p=\"v\"/></p:a>" none) {} (by
    rw [readText_ofList]
    decide +kernel)
  obtain ⟨contents, hcontents, -⟩ := readText_eq_ok hread
  have hdoctype : contents.doctype = none := by
    have hnone : (Xml.readDocument "<p:a xmlns:p=\"u\"><b xmlns:p=\"v\"/></p:a>".toList).bind
        (·.doctype) = none := by
      rw [String.toList_ofList]
      decide +kernel
    rwa [hcontents] at hnone
  have hsubset := Contents.withoutSubset_of_doctype_eq_none hdoctype
  have hrender := eq_ok_getD (shadowed.render {}) "" (by
    rw [shadowed, readText_ofList]
    decide +kernel)
  have hsettled : shadowed.isSettled = true := by
    rw [shadowed, readText_ofList]
    decide +kernel
  have hhas : shadowed.HasRead contents := .text hread hcontents
  refine ⟨contents, _, hhas, hsubset, hsettled, hrender,
    (render_readText_iff hhas hsubset hsettled rfl hrender none).mpr ⟨?_, fun _ => ?_, ?_⟩⟩
  · rw [hdoctype]
    rintro _ ⟨⟩
  · decide +kernel
  · decide +kernel

/-- A manifest that declares a made-up prefix again, below an element with another one for the same. -/
def redeclared : Document :=
  (readText "<p:a xmlns:p=\"u\"><b xmlns:p=\"v\"><m xmlns:q=\"u\"><ns0:c xmlns:ns0=\"u\"/></m></b></p:a>"
    none).toOption.getD {}

/-- What is read of what is written for it. -/
def redeclaredAgain : Document :=
  (readText ((redeclared.render {}).toOption.getD "") none).toOption.getD {}

set_option maxRecDepth 10000 in
/-- Its innermost element is written under the prefix that it declares, and then under the other one. -/
theorem redeclared_not_rendered_again :
    readText "<p:a xmlns:p=\"u\"><b xmlns:p=\"v\"><m xmlns:q=\"u\"><ns0:c xmlns:ns0=\"u\"/></m></b></p:a>"
        none = .ok redeclared ∧
      ∃ s, redeclared.render {} = .ok s ∧ readText s none = .ok redeclaredAgain ∧
        redeclaredAgain.render {} ≠ .ok s := by
  have hagain : redeclaredAgain =
      (readChars ((redeclared.renderChars {}).toOption.getD []) none).toOption.getD {} := by
    rw [redeclaredAgain, getD_render, readText_ofList]
  have hother : (redeclaredAgain.renderChars {}).toOption.getD [] ≠
      (redeclared.renderChars {}).toOption.getD [] := by
    rw [hagain, redeclared, readText_ofList]
    decide +kernel
  refine ⟨eq_ok_getD _ {} ?_, _, eq_ok_getD (redeclared.render {}) "" ?_, ?_, fun hsame => hother ?_⟩
  · rw [readText_ofList]
    decide +kernel
  · rw [redeclared, readText_ofList]
    decide +kernel
  · refine eq_ok_getD (readText _ none) {} ?_
    rw [getD_render, readText_ofList, redeclared, readText_ofList]
    decide +kernel
  · have htext := getD_of_eq_ok hsame ""
    rw [getD_render, getD_render] at htext
    exact String.ofList_inj.mp htext

end Manifest
