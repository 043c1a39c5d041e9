import Manifest.Proofs.Document.FixedPoint
import Manifest.Proofs.Xml.Within

/-! The names of the elements of a document that is written and read again. Each element has the name
that it had, in the namespace that it had; one without a namespace has that of the nearest element around
it that has one. -/

set_option autoImplicit false

namespace Manifest

open Xml (Contents ExpandedName Markup Scope Site)

/-- The name of an element with its namespace, if it has one. -/
def Element.expandedName (e : Element) : ExpandedName :=
  ⟨e.tag.uri, e.name⟩

/--
The name under which the element at a position is written, inside an element of namespace `parent`: in
its own namespace or in the one around it.
-/
def Element.writtenName? : Option String → Position → Element → Option ExpandedName
  | parent, [], e => some ⟨e.tag.uri.or parent, e.name⟩
  | parent, rank :: rest, e =>
    (e.elements[rank]?).bind (writtenName? (e.tag.uri.or parent) rest)

theorem toNode_mem_of_mem {nodes : List Node} {e : Element} (h : e ∈ elementsOf nodes) :
    e.toNode ∈ nodes := by
  obtain ⟨node, hn, he⟩ := List.mem_filterMap.mp h
  rwa [Element.toNode_of_element? he]

mutual

/--
Whether every element inside an element with a namespace has one too, where `parent` is the namespace of
the element around the node.
-/
def Node.spaced (parent : Option String) : Node → Bool
  | .element tag children => (parent.isNone || tag.uri.isSome) && spacedAll tag.uri children
  | _ => true

/-- Whether every element among and inside some nodes has a namespace if the one around it has. -/
def spacedAll (parent : Option String) : List Node → Bool
  | [] => true
  | node :: rest => node.spaced parent && spacedAll parent rest

end

theorem spacedAll_iff {parent : Option String} {nodes : List Node} :
    spacedAll parent nodes = true ↔ ∀ e ∈ elementsOf nodes, e.toNode.spaced parent = true := by
  induction nodes with
  | nil => simp [spacedAll]
  | cons node rest ih =>
    rw [spacedAll, Bool.and_eq_true, ih]
    cases node with
    | element tag children =>
      rw [elementsOf_element_cons, List.forall_mem_cons]
      rfl
    | _ => exact and_iff_right rfl

theorem or_eq_self_iff {uri parent : Option String} :
    uri.or parent = uri ↔ (parent.isNone || uri.isSome) = true := by
  cases uri <;> cases parent <;> simp

/-- Elements that have a namespace where the one around them has are written under their own names. -/
theorem Element.writtenName?_of_spaced {parent : Option String} {e : Element}
    (h : e.toNode.spaced parent = true) (position : Position) :
    e.writtenName? parent position = (e.at? position).map expandedName := by
  induction position generalizing parent e with
  | nil =>
    rw [Element.toNode, Node.spaced, Bool.and_eq_true] at h
    rw [writtenName?, or_eq_self_iff.mpr h.1]
    rfl
  | cons rank rest ih =>
    rw [Element.toNode, Node.spaced, Bool.and_eq_true] at h
    rw [writtenName?, or_eq_self_iff.mpr h.1, at?]
    cases hc : e.elements[rank]? with
    | none => rfl
    | some c => exact ih (spacedAll_iff.mp h.2 c (List.mem_of_getElem? hc))

mutual

/-- Only such elements are written under their own names throughout. -/
theorem spaced_of_writtenName? {parent : Option String} (node : Node)
    (h : ∀ e : Element, node.element? = some e →
      ∀ position, e.writtenName? parent position = (e.at? position).map Element.expandedName) :
    node.spaced parent = true := by
  cases node with
  | element tag children =>
    have hnames := h ⟨tag, children⟩ rfl
    have hroot : tag.uri.or parent = tag.uri := by
      have hhere := hnames []
      simpa [Element.writtenName?, Element.at?, Element.expandedName] using hhere
    rw [Node.spaced, Bool.and_eq_true]
    refine ⟨or_eq_self_iff.mp hroot, spacedAll_of_writtenName? children fun rank c hc position => ?_⟩
    have hbelow := hnames (rank :: position)
    rw [Element.writtenName?, Element.at?, Element.elements] at hbelow
    dsimp only at hbelow
    rw [hc, hroot] at hbelow
    exact hbelow
  | _ => rfl

theorem spacedAll_of_writtenName? {parent : Option String} (nodes : List Node)
    (h : ∀ (rank : Nat) (c : Element), (elementsOf nodes)[rank]? = some c →
      ∀ position, c.writtenName? parent position = (c.at? position).map Element.expandedName) :
    spacedAll parent nodes = true := by
  cases nodes with
  | nil => rfl
  | cons node rest =>
    rw [spacedAll, Bool.and_eq_true]
    constructor
    · refine spaced_of_writtenName? node fun e he => h 0 e ?_
      rw [← Element.toNode_of_element? he]
      rfl
    · refine spacedAll_of_writtenName? rest fun rank c hc => ?_
      cases node with
      | element tag children => exact h (rank + 1) c hc
      | _ => exact h rank c hc

end

namespace Xml

open Markup (bareAll rawAttribute resolveAll)

namespace Markup

/-- The name, as it is read inside a scope, of the element at a position of markup. -/
def nameAt? : Scope → Position → Markup → Option ExpandedName
  | reading, [], .element name attributes _ =>
    let tag := (resolveTag [] reading name.toList (attributes.map rawAttribute)).tag
    some ⟨tag.uri, tag.name⟩
  | reading, rank :: rest, .element name attributes children =>
    let inner := (resolveTag [] reading name.toList (attributes.map rawAttribute)).scope
    ((children.filter isElement)[rank]?).bind (nameAt? inner rest)
  | _, _, _ => none

@[simp] theorem isElement_unified (m : Markup) : m.unified.isElement = m.isElement := by
  cases m <;> rfl

@[simp] theorem isElement_bare (m : Markup) : m.bare.isElement = m.isElement := by
  cases m with
  | element name attributes children => rw [bare]; split <;> rfl
  | _ => rfl

theorem filter_unifiedAll (ms : List Markup) :
    (unifiedAll ms).filter isElement = (ms.filter isElement).map unified := by
  rw [unifiedAll_eq_map, List.filter_map]
  congr 1
  exact List.filter_congr fun m _ => isElement_unified m

theorem filter_bareAll (ms : List Markup) :
    (bareAll ms).filter isElement = (ms.filter isElement).map bare := by
  induction ms with
  | nil => rfl
  | cons m ms ih =>
    rw [bareAll, List.filter_cons]
    split
    · next hb => rw [ih, isElement_of_isText (isText_of_isBlank hb)]; rfl
    · rw [List.filter_cons, isElement_bare, ih]
      split <;> rfl

/-- An element among markup is read as the element of the same rank. -/
theorem getElem?_elementsOf_resolveAll (reading : Scope) (ms : List Markup) (rank : Nat) :
    (elementsOf (resolveAll reading ms))[rank]? =
      ((ms.filter isElement)[rank]?).bind fun m => (m.resolve reading).element? := by
  rw [elementsOf_resolveAll]
  have hall : ∀ m ∈ ms.filter isElement, (m.resolve reading).element?.isSome = true := by
    intro m hm
    have helement := (List.mem_filter.mp hm).2
    cases m with
    | element name attributes children => rfl
    | _ => cases helement
  generalize ms.filter isElement = ms at hall
  induction ms generalizing rank with
  | nil => rfl
  | cons m ms ih =>
    obtain ⟨e, he⟩ := Option.isSome_iff_exists.mp (hall m (by simp))
    rw [List.filterMap_cons, he]
    cases rank with
    | zero => rw [List.getElem?_cons_zero, List.getElem?_cons_zero, Option.bind_some, he]
    | succ rank => exact ih rank fun x hx => hall x (by simp [hx])

/-- The element that markup is read as has at each position the name that is read there. -/
theorem nameAt?_eq {reading : Scope} (position : Position) (m : Markup) :
    m.nameAt? reading position =
      ((m.unified.resolve reading).element?).bind fun e =>
        (e.at? position).map Element.expandedName := by
  induction position generalizing reading m with
  | nil => cases m <;> rfl
  | cons rank rest ih =>
    cases m with
    | element name attributes children =>
      rw [unified, resolve, Node.element?, Option.bind_some, Element.at?, Element.elements, nameAt?]
      dsimp only
      rw [getElem?_elementsOf_resolveAll, filter_unifiedAll, List.getElem?_map]
      cases (children.filter isElement)[rank]? with
      | none => rfl
      | some c =>
        rw [Option.bind_some, ih, Option.map_some, Option.bind_some, Option.map_bind]
        rfl
    | _ => rfl

/-- White space between nodes does not bear on names. -/
theorem nameAt?_bare {reading : Scope} (position : Position) (m : Markup) :
    m.bare.nameAt? reading position = m.nameAt? reading position := by
  induction position generalizing reading m with
  | nil =>
    cases m with
    | element name attributes children => rw [bare]; split <;> rfl
    | _ => rfl
  | cons rank rest ih =>
    cases m with
    | element name attributes children =>
      rw [bare]
      split
      · rw [nameAt?, nameAt?, filter_bareAll, List.getElem?_map]
        cases (children.filter isElement)[rank]? with
        | none => rfl
        | some c => exact ih c
      · rfl
    | _ => rfl

mutual

/-- Lines that are begun for nodes are white space between them. -/
theorem bare_laid (m : Markup) (level : Nat) : (m.laid level).bare = m.bare := by
  cases m with
  | element name attributes children =>
    rw [laid]
    split
    · rfl
    · next hc =>
      rw [Bool.or_eq_true, not_or] at hc
      obtain ⟨hempty, htext⟩ := hc
      have hchildren := bareAll_laidLines children (by simpa using htext) (level + 1)
      have hnodes : hasNodes children = true := by
        cases children with
        | nil => exact absurd rfl hempty
        | cons m ms =>
          have hm : m.isText = false := by simp_all
          rw [hasNodes_cons, hm]
          rfl
      have hnodes' : hasNodes (laidLines (level + 1) children) = true := by
        rw [← hasNodes_bareAll, hchildren, hasNodes_bareAll, hnodes]
      rw [bare, bare, if_pos hnodes', if_pos hnodes, hchildren]
  | _ => rfl

theorem bareAll_laidLines (ms : List Markup) (hms : ∀ m ∈ ms, m.isText = false) (level : Nat) :
    bareAll (laidLines level ms) = bareAll ms := by
  cases ms with
  | nil => exact if_pos (isBlank_newLine (level - 1))
  | cons m ms =>
    have hm := hms m (by simp)
    have hlaid := not_isBlank_of_not_isText ((isText_laid m level).trans hm)
    rw [laidLines, bareAll, if_pos (isBlank_newLine _), bareAll, bareAll,
      if_neg (by simp [hlaid]), if_neg (by simp [not_isBlank_of_not_isText hm]),
      bare_laid m level, bareAll_laidLines ms (fun x hx => hms x (by simp [hx])) level]

end

end Markup

/-- What is written for an element is read, at each position, under the name that is written there. -/
theorem nameAt?_qualify {scope reading origin : Scope} {parent : Option String}
    (hsite : Site scope reading origin parent) {e : Element} (he : e.toNode.known origin)
    {next next' : Nat} {m : Markup} (h : qualify scope parent next e.toNode = some (m, next'))
    (position : Position) : m.nameAt? reading position = e.writtenName? parent position := by
  induction position generalizing scope reading origin parent e next next' m with
  | nil =>
    obtain ⟨⟨inner, htag, -⟩, -⟩ := he
    rw [Element.toNode, qualify] at h
    split at h
    · cases h
    · next w hw =>
      obtain ⟨-, hname, huri, hspace, -⟩ := hsite.enter htag hw
      split at h <;> cases h
      rw [Markup.nameAt?, Element.writtenName?, ← hspace, ← huri, Element.name, ← hname]
      rfl
  | cons rank rest ih =>
    obtain ⟨⟨inner, htag, hchildren⟩, -⟩ := he
    rw [Element.toNode, qualify] at h
    split at h
    · cases h
    · next w hw =>
      obtain ⟨hinner, -, -, hspace, -⟩ := hsite.enter htag hw
      split at h
      · cases h
      · next ms n hms =>
        cases h
        have hpairs := elements_qualifyNodes hms
        rw [Markup.nameAt?, Element.writtenName?, ← hspace, Element.elements]
        cases hc : (elementsOf e.children)[rank]? with
        | none =>
          rw [List.getElem?_eq_none_iff, hpairs.length_eq] at hc
          rw [List.getElem?_eq_none_iff.mpr hc]
          rfl
        | some c =>
          obtain ⟨hlt, rfl⟩ := List.getElem?_eq_some_iff.mp hc
          have hlt' : rank < (ms.filter Markup.isElement).length := hpairs.length_eq ▸ hlt
          obtain ⟨k, k', hchild⟩ := hpairs.get hlt hlt'
          rw [List.getElem?_eq_getElem hlt', Option.bind_some, Option.bind_some]
          exact ih hinner (knownAll_iff.mp hchildren _ (toNode_mem_of_mem (List.getElem_mem hlt)))
            hchild

end Xml

open Xml.Markup (resolveAll unifiedAll)

/-- The elements of a document that is read again have the names under which they were written. -/
theorem Document.WrittenAs.expandedName_reread {d : Document} {contents : Contents}
    (hd : d.IsOrdinary contents) (hknown : knownAll [] d.nodes) {style : Style}
    (hwhite : style.indent.isWhite = true) {before : List Markup} {root : Markup}
    {after : List Markup} {s : String} (h : d.WrittenAs contents style before root after s)
    {e : Element} (he : d.root? = some e) (position : Position) :
    ((d.reread contents style before root after s).at? position).map Element.expandedName =
      e.writtenName? none position := by
  obtain ⟨front, e', back, m, n, hsplit, hm, -, -, hroot⟩ := markup_eq_ok.mp h.markup
  obtain ⟨hnodes, hfront, -⟩ := hd.split hsplit
  have hremarks : ∀ {ms : List Markup}, (∀ m ∈ ms, m.isRemark = true ∧ m.sound = true) →
      ms.filter Markup.isElement = [] := by
    intro ms hms
    rw [List.filter_eq_nil_iff]
    intro x hx
    have hremark := (hms x hx).1
    cases x with
    | element name attributes children => cases hremark
    | _ => exact Bool.false_ne_true
  obtain rfl : e' = e := by
    have hnone : elementsOf front = [] := List.filterMap_eq_nil_iff.mpr fun node hn => by
      have hremark := hfront node hn
      cases node with
      | element tag children => cases hremark
      | _ => rfl
    rw [Document.root?, hnodes, elementsOf_append, hnone] at he
    exact Option.some.inj he
  have hbare : (root.laid 0).bare = m.bare := by
    rw [Markup.bare_laid]
    rcases apply_eq_ok hwhite hroot with ⟨rfl, -⟩ | ⟨unit, -, hunit, rfl, -⟩
    · rfl
    · exact Markup.bare_indent hunit m 1
  have hroot' : (d.reread contents style before root after s).root? =
      ((root.laid 0).unified.resolve []).element? := by
    rw [Document.root?, List.head?_eq_getElem?, Document.reread, documentOf]
    dsimp only
    rw [Markup.getElem?_elementsOf_resolveAll, Markup.filter_unifiedAll, List.filter_append,
      hremarks h.front, List.filter_cons_of_pos (isElement_laid h.isElement 0)]
    rfl
  have hknownRoot : e'.toNode.known [] := by
    rw [hnodes] at hknown
    exact (knownAll_append.mp hknown).2.1
  rw [Document.at?, hroot', Option.map_bind, ← Xml.nameAt?_qualify Site.top hknownRoot hm position,
    ← Markup.nameAt?_bare, ← hbare, Markup.nameAt?_bare, Markup.nameAt?_eq]
  rfl

/--
A document that was read can be written and read again with the names of all its elements exactly when
it can be written and read at all, and every element inside one with a namespace has one too.
-/
theorem readText_render_names_iff {d : Document} {contents : Contents} (h : d.HasRead contents)
    (hcalm : calmAll d.nodes) {style : Style} (hwhite : style.indent.isWhite = true)
    (source : Option String) :
    (∃ s d', d.render style = .ok s ∧ readText s source = .ok d' ∧ ∀ position,
        (d'.at? position).map Element.expandedName = (d.at? position).map Element.expandedName) ↔
      (∃ s, d.render style = .ok s) ∧ d.CanBeRead contents style ∧ spacedAll none d.nodes = true := by
  have hd := h.isOrdinary_of_calm hcalm
  have hknown := h.known_of_calm hcalm
  obtain ⟨e, he, -⟩ := hd.oneRoot
  have hroot : d.root? = some e := by rw [Document.root?, he]; rfl
  have hat : ∀ position, d.at? position = e.at? position := by
    intro position
    rw [Document.at?, hroot, Option.bind_some]
  have hspaced : spacedAll none d.nodes = true ↔ e.toNode.spaced none = true := by
    rw [spacedAll_iff, he]
    simp
  rw [hspaced]
  constructor
  · rintro ⟨s, d', hs, hread', hnames⟩
    obtain ⟨before, root, after, hwritten⟩ := hd.render_eq hwhite hs
    obtain ⟨hread, hnot⟩ := hwritten.readText_eq hd source
    have hcan : d.CanBeRead contents style := by
      by_contra hno
      rw [hnot hno] at hread'
      cases hread'
    rw [hread hcan] at hread'
    cases hread'
    refine ⟨⟨s, hs⟩, hcan, spaced_of_writtenName? _ fun x hx position => ?_⟩
    cases hx
    rw [← hwritten.expandedName_reread hd hknown hwhite hroot, hnames, hat]
  · rintro ⟨⟨s, hs⟩, hcan, hnames⟩
    obtain ⟨before, root, after, hwritten⟩ := hd.render_eq hwhite hs
    obtain ⟨hread, -⟩ := hwritten.readText_eq hd source
    refine ⟨s, _, hs, hread hcan, fun position => ?_⟩
    rw [hwritten.expandedName_reread hd hknown hwhite hroot, hat]
    exact Element.writtenName?_of_spaced hnames position

/-- A manifest whose elements are all in namespaces. -/
def spacedThroughout : Document :=
  (readText "<p:a xmlns:p=\"u\"><p:b/><c xmlns=\"v\"/></p:a>" none).toOption.getD {}

set_option maxRecDepth 10000 in
theorem readText_render_names_spacedThroughout :
    ∃ contents, spacedThroughout.HasRead contents ∧ calmAll spacedThroughout.nodes ∧
      ∃ s d', spacedThroughout.render {} = .ok s ∧ readText s none = .ok d' ∧ ∀ position,
        (d'.at? position).map Element.expandedName =
          (spacedThroughout.at? position).map Element.expandedName := by
  have hread := eq_ok_getD (readText "<p:a xmlns:p=\"u\"><p:b/><c xmlns=\"v\"/></p:a>" none) {}
    (by decide +kernel)
  obtain ⟨contents, hcontents, -⟩ := readText_eq_ok hread
  have hdoctype : contents.doctype = none := by
    have hnone : (Xml.readDocument "<p:a xmlns:p=\"u\"><p:b/><c xmlns=\"v\"/></p:a>".toList).bind
        (·.doctype) = none := by decide +kernel
    rwa [hcontents] at hnone
  have hsubset := Contents.withoutSubset_of_doctype_eq_none hdoctype
  have hhas : spacedThroughout.HasRead contents := .text hread hcontents
  refine ⟨contents, hhas, hhas.calm hsubset,
    (readText_render_names_iff hhas (hhas.calm hsubset) rfl none).mpr
      ⟨⟨_, eq_ok_getD (spacedThroughout.render {}) "" (by decide +kernel)⟩,
        ⟨?_, fun _ => ?_, ?_⟩, ?_⟩⟩
  · rw [hdoctype]
    rintro _ ⟨⟩
  · decide +kernel
  · decide +kernel
  · decide +kernel

/-- A manifest with an element without a namespace inside one with a namespace. -/
def unspaced : Document :=
  (readText "<p:a xmlns:p=\"u\"><b/></p:a>" none).toOption.getD {}

/-- What is read of what is written for it. -/
def unspacedAgain : Document :=
  (readText ((unspaced.render {}).toOption.getD "") none).toOption.getD {}

set_option maxRecDepth 10000 in
/-- Its inner element is written in the namespace of the outer one. -/
theorem unspaced_renamed :
    readText "<p:a xmlns:p=\"u\"><b/></p:a>" none = .ok unspaced ∧
      ∃ s, unspaced.render {} = .ok s ∧ readText s none = .ok unspacedAgain ∧
        (unspaced.at? [0]).map Element.expandedName = some ⟨none, "b"⟩ ∧
          (unspacedAgain.at? [0]).map Element.expandedName = some ⟨some "u", "b"⟩ := by
  refine ⟨eq_ok_getD _ {} ?_, _, eq_ok_getD (unspaced.render {}) "" ?_, eq_ok_getD (readText _ none) {} ?_,
    ?_, ?_⟩
  · rw [readText_ofList]
    decide +kernel
  · rw [unspaced, readText_ofList]
    decide +kernel
  · rw [getD_render, readText_ofList, unspaced, readText_ofList]
    decide +kernel
  · rw [unspaced, readText_ofList]
    decide +kernel
  · rw [unspacedAgain, getD_render, readText_ofList, unspaced, readText_ofList]
    decide +kernel

end Manifest
