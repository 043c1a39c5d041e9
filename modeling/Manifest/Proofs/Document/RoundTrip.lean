import Manifest.Proofs.Document.Rendered

/-! Reading what was written. A document that was read, or made of one by inserting entries, is read
again as the same document wherever what is written for it can be read at all. -/

set_option autoImplicit false

namespace Manifest

open Xml (Contents Markup writtenChars)
open Xml.Markup (readAll unifiedAll)

theorem readAll_append {reading : Xml.Scope} {a b : List Markup} {x y : List Node}
    (ha : readAll reading a x) (hb : readAll reading b y) : readAll reading (a ++ b) (x ++ y) := by
  induction a generalizing x with
  | nil =>
    have hx : ∀ node ∈ x, node.isBlank = true := List.all_eq_true.mp ha
    induction x with
    | nil => exact hb
    | cons node x ih =>
      rw [List.cons_append, Markup.readAll_blank_cons (hx node (by simp))]
      exact ih (by rw [readAll, List.all_eq_true]; exact fun n hn => hx n (by simp [hn]))
        fun n hn => hx n (by simp [hn])
  | cons m a ih =>
    rw [readAll] at ha
    rw [List.cons_append, readAll]
    split at ha
    · next hm =>
      rw [if_pos hm]
      exact ih ha
    · next hm =>
      obtain ⟨node, rest, hdrop, hnode, hrest⟩ := ha
      rw [if_neg hm]
      refine ⟨node, rest ++ y, ?_, hnode, ih hrest⟩
      rw [List.dropWhile_append, hdrop]
      rfl

/-- The top level of an ordinary document: comments and instructions beside the root. -/
theorem Document.IsOrdinary.split {d : Document} {contents : Contents} (hd : d.IsOrdinary contents)
    {front back : List Node} {e : Element}
    (h : splitAtElement (fun _ => true) d.nodes = some (front, e, back)) :
    d.nodes = front ++ e.toNode :: back ∧ (∀ node ∈ front, node.isRemark = true) ∧
      (∀ node ∈ back, node.isRemark = true) ∧
      d.doctype = contents.doctype.map (·.render e.name) := by
  obtain ⟨hnodes, -, -⟩ := splitAtElement_eq_some h
  obtain ⟨root, hroot, hdoctype⟩ := hd.oneRoot
  have hnone := elementsOf_of_splitAtElement h
  rw [hnodes, elementsOf_append, hnone, elementsOf_toNode_cons, List.nil_append, List.cons.injEq]
    at hroot
  obtain ⟨rfl, hback⟩ := hroot
  have hremark : ∀ nodes : List Node, (∀ node ∈ nodes, node ∈ d.nodes) → elementsOf nodes = [] →
      ∀ node ∈ nodes, node.isRemark = true := by
    intro nodes hmem hno node hn
    have htext := hd.noText node (hmem node hn)
    cases node with
    | element tag children =>
      have hin : (⟨tag, children⟩ : Element) ∈ elementsOf nodes :=
        List.mem_filterMap.mpr ⟨_, hn, rfl⟩
      rw [hno] at hin
      cases hin
    | text value => cases htext
    | _ => rfl
  exact ⟨hnodes, hremark front (fun x hx => by rw [hnodes]; simp [hx]) hnone,
    hremark back (fun x hx => by rw [hnodes]; simp [hx]) hback, hdoctype⟩

/-- The document type of an ordinary document with the name of its root. -/
def Document.typed (d : Document) (contents : Contents) : Option (Xml.Doctype × String) :=
  contents.doctype.map fun type => (type, ((elementsOf d.nodes).head?.map Element.name).getD "")

theorem not_mem_encoding {name : String} (h : isEncodingWord name) :
    '"' ∉ name.toList ∧ '\r' ∉ name.toList :=
  ⟨Xml.not_mem_of_all h (by decide), Xml.not_mem_of_all h (by decide)⟩

/--
What an ordinary document is written as: its front, and the markup of its nodes, which can be read as
far as its depth goes.
-/
structure Document.WrittenAs (d : Document) (contents : Contents) (style : Style)
    (before : List Markup) (root : Markup) (after : List Markup) (s : String) : Prop where
  markup : d.markup style.indent = .ok (before, root, after)
  chars : s.toList = writtenChars (d.declared style) (d.typed contents) before (root.laid 0) after
  quotable : Xml.doctypeQuotable (d.typed contents)
  isElement : root.isElement = true
  sound : root.sound = true
  front : ∀ m ∈ before, m.isRemark = true ∧ m.sound = true
  back : ∀ m ∈ after, m.isRemark = true ∧ m.sound = true
  read : readAll [] (before ++ root.laid 0 :: after) d.nodes
  readRoot : ∀ e ∈ d.root?, (root.laid 0).readsAs [] e.toNode

theorem Document.IsOrdinary.doctype_eq_typed {d : Document} {contents : Contents}
    (hd : d.IsOrdinary contents) : d.doctype = (d.typed contents).map fun x => x.1.render x.2 := by
  obtain ⟨root, hroot, hdoctype⟩ := hd.oneRoot
  rw [hdoctype, Document.typed, hroot, Option.map_map]
  rfl

/-- The root of a document that is written has a name that can stand in a document type. -/
theorem quotable_typed {d : Document} {contents : Contents}
    (hquotable : ∀ type ∈ contents.doctype, type.id.Quotable) {front back : List Node} {e : Element}
    (hsplit : splitAtElement (fun _ => true) d.nodes = some (front, e, back)) (he : Xml.Ordinary e.tag)
    {m : Markup} {n : Nat} (hm : Xml.qualify [] none 0 e.toNode = some (m, n)) :
    Xml.doctypeQuotable (d.typed contents) := by
  have hname : Xml.isLocalName e.name.toList = true := by
    rw [Element.toNode, Xml.qualify] at hm
    split at hm
    · cases hm
    · next w hw =>
      obtain ⟨declared, own, xs, next', hc, -⟩ := he.chosen isSound_nil (by simp) hw
      exact hc.sound.isLocal
  have hhead : (elementsOf d.nodes).head? = some e := by
    rw [(splitAtElement_eq_some hsplit).1, elementsOf_append, elementsOf_of_splitAtElement hsplit]
    rfl
  intro x hx
  rw [Document.typed, hhead] at hx
  obtain ⟨type, htype, rfl⟩ := Option.map_eq_some_iff.mp hx
  exact ⟨hquotable type htype, Xml.isRawName_of_isLocalName hname⟩

theorem Document.IsOrdinary.render_eq {d : Document} {contents : Contents}
    (hd : d.IsOrdinary contents) {style : Style} (hwhite : style.indent.isWhite = true) {s : String}
    (hs : d.render style = .ok s) :
    ∃ before root after, d.WrittenAs contents style before root after s := by
  obtain ⟨before, root, after, hmarkup, hchars, helement, hsound, hbeforeRemarks, hafterRemarks⟩ :=
    render_eq_written hd.doctype_eq_typed hs
  obtain ⟨front, e, back, m, n, hsplit, hm, hbefore, hafter, hroot⟩ := markup_eq_ok.mp hmarkup
  obtain ⟨hnodes, hfront, hback, -⟩ := hd.split hsplit
  obtain ⟨n₁, hbefore⟩ := remarks_eq_ok.mp hbefore
  obtain ⟨n₂, hafter⟩ := remarks_eq_ok.mp hafter
  rw [List.filter_eq_self.mpr hfront] at hbefore
  rw [List.filter_eq_self.mpr hback] at hafter
  have hordinary := hd.ordinary
  rw [hnodes] at hordinary
  obtain ⟨hofront, hoe, hoback⟩ := ordinaries_append.mp hordinary
  have hremarkText : ∀ node : Node, node.isRemark = true → node.isText = false := by
    intro node hn
    cases node <;> first | rfl | cases hn
  -- what is read of the parts
  have hagrees : Xml.Scope.Agrees [] [] := Xml.Scope.Agrees.refl _
  have hparent : ∀ u ∈ (none : Option String), u ≠ "" ∧ u ≠ Xml.xmlnsUri := nofun
  have hreadRoot := Markup.readsAs_qualify isSound_nil rfl hagrees hparent e.toNode hoe hm
  have hreadBefore := Markup.readAll_qualifyNodes isSound_nil rfl hagrees hparent front
    (apart_of_not_isText fun x hx => hremarkText x (hfront x hx)) hofront hbefore
  have hreadAfter := Markup.readAll_qualifyNodes isSound_nil rfl hagrees hparent back
    (apart_of_not_isText fun x hx => hremarkText x (hback x hx)) hoback hafter
  have hreadLaid := Markup.readsAs_laid root (readsAs_apply hwhite hroot hreadRoot) 0
  refine ⟨before, root, after, hmarkup, hchars, quotable_typed hd.quotable hsplit hoe.1 hm, helement,
    hsound, hbeforeRemarks, hafterRemarks, ?_, ?_⟩
  · rw [hnodes]
    refine readAll_append hreadBefore (Markup.readAll_cons ?_ rfl hreadLaid hreadAfter)
    cases root with
    | element name attributes children => rw [Markup.laid]; split <;> rfl
    | _ => cases helement
  · intro e' he'
    rw [Document.root?, hnodes, elementsOf_append, elementsOf_of_splitAtElement hsplit] at he'
    cases he'
    exact hreadLaid

/-! Reading it again. -/

/-- Whether what is written for a document can be read, as far as its front and its depth go. -/
structure Document.CanBeRead (d : Document) (contents : Contents) (style : Style) : Prop where
  /-- A document type with a public identifier has a system identifier as well. -/
  doctype : ∀ type ∈ contents.doctype, type.id.isComplete = true
  /-- The encoding that a declaration would name has a name that can stand there. -/
  encoding : style.declaration = true → Xml.isEncodingName d.encoding.toList = true
  depth : depthOf d.nodes ≤ Xml.maxDepth

theorem depthAll_le_iff {ms : List Markup} {n : Nat} :
    Markup.depthAll ms ≤ n ↔ ∀ m ∈ ms, m.depth ≤ n := by
  induction ms with
  | nil => simp [Markup.depthAll]
  | cons m ms ih => simp [Markup.depthAll, ih]

theorem acceptedAll_iff {reading : Xml.Scope} {ms : List Markup} :
    Markup.acceptedAll reading ms ↔ ∀ m ∈ ms, m.accepted reading := by
  induction ms with
  | nil => simp [Markup.acceptedAll]
  | cons m ms ih => simp [Markup.acceptedAll, ih]

theorem resolveAll_eq_map {reading : Xml.Scope} {ms : List Markup}
    (h : ∀ m ∈ ms, m.isText = false) :
    Markup.resolveAll reading ms = ms.map (·.resolve reading) := by
  induction ms with
  | nil => rfl
  | cons m ms ih =>
    have hvoid : m.isVoid = false := by
      have hm := h m (by simp)
      cases m with
      | text value => cases hm
      | _ => rfl
    rw [Markup.resolveAll, hvoid, if_neg (by simp), ih fun x hx => h x (by simp [hx]), List.map_cons]

/-- Text that begins with a bracket is not empty. -/
theorem readText_of_head? {s : String} (h : s.toList.head? = some '<') (source : Option String) :
    readText s source = match Xml.readDocument s.toList with
      | none => .error (.malformed source)
      | some contents => .ok (documentOf contents ((namedEncoding? s).getD "UTF-8")) := by
  have hspace : (s.toList.all fun c => isAsciiSpace c.toNat) = false := by
    cases hs : s.toList with
    | nil => rw [hs] at h; cases h
    | cons c cs =>
      rw [hs, List.head?_cons, Option.some.injEq] at h
      rw [h]
      rfl
  rw [readText, hspace]
  exact if_neg (by simp)

/-- What is read of the text that a document is written as. -/
def Document.reread (d : Document) (contents : Contents) (style : Style) (before : List Markup)
    (root : Markup) (after : List Markup) (s : String) : Document :=
  documentOf
    ⟨(d.declared style).map fun e => ⟨"1.0".toList, some e.toList⟩,
      Xml.doctypeTrimmed (d.typed contents),
      Markup.resolveAll [] (unifiedAll (before ++ root.laid 0 :: after))⟩
    ((namedEncoding? s).getD "UTF-8")

theorem isElement_laid {m : Markup} (h : m.isElement = true) (level : Nat) :
    (m.laid level).isElement = true := by
  cases m with
  | element name attributes children => rw [Markup.laid]; split <;> rfl
  | _ => cases h

theorem isText_of_isElement {m : Markup} (h : m.isElement = true) : m.isText = false := by
  cases m with
  | text value => cases h
  | _ => rfl

theorem Document.WrittenAs.noText {d : Document} {contents : Contents} {style : Style}
    {before : List Markup} {root : Markup} {after : List Markup} {s : String}
    (h : d.WrittenAs contents style before root after s) :
    ∀ m ∈ before ++ root.laid 0 :: after, m.isText = false := by
  intro m hm
  rcases List.mem_append.mp hm with hm | hm
  · exact Xml.isText_of_isRemark (h.front m hm).1
  · rcases List.mem_cons.mp hm with rfl | hm
    · exact isText_of_isElement (isElement_laid h.isElement 0)
    · exact Xml.isText_of_isRemark (h.back m hm).1

theorem Document.WrittenAs.head?_eq {d : Document} {contents : Contents} {style : Style}
    {before : List Markup} {root : Markup} {after : List Markup} {s : String}
    (h : d.WrittenAs contents style before root after s) : s.toList.head? = some '<' := by
  rw [h.chars]
  exact Xml.head?_writtenChars (fun m hm => (h.front m hm).1) (isElement_laid h.isElement 0)

/-- What an ordinary document is written as is its front and the markup of its nodes, or is malformed. -/
theorem Document.WrittenAs.readDocument_eq {d : Document} {contents : Contents}
    (hd : d.IsOrdinary contents) {style : Style} {before : List Markup} {root : Markup}
    {after : List Markup} {s : String} (h : d.WrittenAs contents style before root after s) :
    (d.CanBeRead contents style → Xml.readDocument s.toList =
        some ⟨(d.declared style).map fun e => ⟨"1.0".toList, some e.toList⟩,
          Xml.doctypeTrimmed (d.typed contents),
          Markup.resolveAll [] (unifiedAll (before ++ root.laid 0 :: after))⟩) ∧
      (¬ d.CanBeRead contents style → Xml.readDocument s.toList = none) := by
  have haccepted := acceptedAll_iff.mp (Markup.acceptedAll_of_readAll _ h.read) (root.laid 0)
    (by simp)
  have hdepth : (root.laid 0).depth ≤ Xml.maxDepth ↔ depthOf d.nodes ≤ Xml.maxDepth := by
    rw [← Markup.depthAll_of_readAll _ h.read, depthAll_le_iff]
    refine ⟨fun hle m hm => ?_, fun hle => hle _ (by simp)⟩
    rcases List.mem_append.mp hm with hm | hm
    · rw [Xml.depth_of_isRemark (h.front m hm).1]
      exact Nat.zero_le _
    · rcases List.mem_cons.mp hm with rfl | hm
      · exact hle
      · rw [Xml.depth_of_isRemark (h.back m hm).1]
        exact Nat.zero_le _
  have hreadable : Xml.isReadable (d.declared style) (d.typed contents) (root.laid 0) = true ↔
      d.CanBeRead contents style := by
    have hencoding : ((d.declared style).all fun e => Xml.isEncodingName e.toList) = true ↔
        (style.declaration = true → Xml.isEncodingName d.encoding.toList = true) := by
      rw [Document.declared]
      cases style.declaration <;> simp
    have hcomplete : Xml.doctypeComplete (d.typed contents) = true ↔
        ∀ type ∈ contents.doctype, type.id.isComplete = true := by
      rw [Xml.doctypeComplete, Document.typed]
      cases contents.doctype <;> simp
    rw [Xml.isReadable, Bool.and_eq_true, Bool.and_eq_true, hencoding, hcomplete, decide_eq_true_eq,
      hdepth]
    exact ⟨fun h => ⟨h.1.2, h.1.1, h.2⟩, fun h => ⟨⟨h.encoding, h.doctype⟩, h.depth⟩⟩
  have hencoding : ∀ e ∈ d.declared style, '"' ∉ e.toList ∧ '\r' ∉ e.toList := by
    intro e he
    rw [Document.declared] at he
    split at he
    · cases he
      exact not_mem_encoding hd.encoding
    · cases he
  have hwritten := Xml.readDocument_written hencoding h.quotable h.front
    (isElement_laid h.isElement 0) (Markup.sound_laid root h.sound 0) h.back haccepted
  rw [← h.chars] at hwritten
  rw [hwritten]
  constructor
  · intro hcan
    have hnoText : ∀ m ∈ unifiedAll (before ++ root.laid 0 :: after), m.isText = false := by
      rw [Markup.unifiedAll_eq_map]
      intro m hm
      obtain ⟨x, hx, rfl⟩ := List.mem_map.mp hm
      exact (Markup.isText_unified x).trans (h.noText x hx)
    rw [if_pos (hreadable.mpr hcan), resolveAll_eq_map hnoText, Markup.unifiedAll_eq_map,
      List.map_map, List.map_append, List.map_cons]
    rfl
  · intro hno
    rw [if_neg fun hr => hno (hreadable.mp hr)]

/-- The text that an ordinary document is written as is read, or cannot be read. -/
theorem Document.WrittenAs.readText_eq {d : Document} {contents : Contents}
    (hd : d.IsOrdinary contents) {style : Style} {before : List Markup} {root : Markup}
    {after : List Markup} {s : String} (h : d.WrittenAs contents style before root after s)
    (source : Option String) :
    (d.CanBeRead contents style →
        readText s source = .ok (d.reread contents style before root after s)) ∧
      (¬ d.CanBeRead contents style → readText s source = .error (.malformed source)) := by
  obtain ⟨hread, hnot⟩ := h.readDocument_eq hd
  rw [readText_of_head? h.head?_eq]
  exact ⟨fun hcan => by rw [hread hcan]; rfl, fun hno => by rw [hnot hno]⟩

/-- What is read of the text that a document is written as is the same document. -/
theorem Document.WrittenAs.same_reread {d : Document} {contents : Contents} {style : Style}
    {before : List Markup} {root : Markup} {after : List Markup} {s : String}
    (h : d.WrittenAs contents style before root after s) :
    (d.reread contents style before root after s).same d = true :=
  Markup.sameNodes_of_readAll _ h.read

/-- What is written for an ordinary document is read as that document, if it can be read. -/
theorem Document.IsOrdinary.readText_same_iff {d : Document} {contents : Contents}
    (hd : d.IsOrdinary contents) {style : Style} (hwhite : style.indent.isWhite = true) {s : String}
    (hs : d.render style = .ok s) (source : Option String) :
    (∃ d', readText s source = .ok d' ∧ d'.same d = true) ↔ d.CanBeRead contents style := by
  obtain ⟨before, root, after, hwritten⟩ := hd.render_eq hwhite hs
  obtain ⟨hread, hnot⟩ := hwritten.readText_eq hd source
  refine ⟨fun ⟨d', hd', _⟩ => ?_, fun hcan => ⟨_, hread hcan, hwritten.same_reread⟩⟩
  by_contra hno
  rw [hnot hno] at hd'
  cases hd'

/--
What is written for a document that was read, or made of one by inserting entries, is read as the same
document exactly when its front and its depth let it be read.
-/
theorem readText_render_same_iff {d : Document} {contents : Contents} (h : d.Assembled contents)
    (hsubset : contents.withoutSubset) {style : Style} (hwhite : style.indent.isWhite = true)
    {s : String} (hs : d.render style = .ok s) (source : Option String) :
    (∃ d', readText s source = .ok d' ∧ d'.same d = true) ↔ d.CanBeRead contents style :=
  (h.isOrdinary hsubset).readText_same_iff hwhite hs source

/-- A manifest with a comment in it. -/
def commented : Document :=
  (readText "<project><!--x--></project>" none).toOption.getD {}

/-- The manifest with a module put in front of the comment. -/
def commentedModule : Document :=
  let root := commented.root?.getD default
  commented.withRoot
    { root with children := insertNodes [(Element.module "a").toNode] 0 root.children }

set_option maxRecDepth 10000 in
theorem readText_render_same_commentedModule :
    ∃ contents s, commentedModule.Assembled contents ∧ contents.withoutSubset ∧
      commentedModule.render {} = .ok s ∧
      ∃ d', readText s none = .ok d' ∧ d'.same commentedModule = true := by
  have hread := eq_ok_getD (readText "<project><!--x--></project>" none) {} (by decide +kernel)
  obtain ⟨contents, hcontents, -⟩ := readText_eq_ok hread
  have hdoctype : contents.doctype = none := by
    have hnone : (Xml.readDocument "<project><!--x--></project>".toList).bind (·.doctype) = none := by
      decide +kernel
    rwa [hcontents] at hnone
  have hsubset := Contents.withoutSubset_of_doctype_eq_none hdoctype
  have hroot : commented.root? = some (commented.root?.getD default) := by
    obtain ⟨root, h⟩ := Option.isSome_iff_exists.mp
      (show commented.root?.isSome = true by decide +kernel)
    rw [h]
    rfl
  have hmade : commentedModule.Assembled contents :=
    .insert (.read (.text hread hcontents)) (.module "a") (inserted_withRoot hroot _ 0)
  have hrender := eq_ok_getD (commentedModule.render {}) "" (by decide +kernel)
  refine ⟨contents, _, hmade, hsubset, hrender,
    (readText_render_same_iff hmade hsubset rfl hrender none).mpr ⟨?_, fun _ => ?_, ?_⟩⟩
  · rw [hdoctype]
    rintro _ ⟨⟩
  · decide +kernel
  · decide +kernel

/-- A document type with a public identifier whose system identifier is empty. -/
def halfIdentified : Document :=
  (readText "<!DOCTYPE a PUBLIC \"p\" \"\"><a/>" none).toOption.getD {}

set_option maxRecDepth 10000 in
/-- Its system identifier is not written, so that what is written cannot be read. -/
theorem halfIdentified_not_read :
    readText "<!DOCTYPE a PUBLIC \"p\" \"\"><a/>" none = .ok halfIdentified ∧
      ∃ s, halfIdentified.render {} = .ok s ∧ ¬ ∃ d', readText s none = .ok d' := by
  have hnone : (readText ((halfIdentified.render {}).toOption.getD "") none).toOption.isSome =
      false := by
    rw [getD_render, readText_ofList, halfIdentified, readText_ofList]
    decide +kernel
  refine ⟨eq_ok_getD _ {} ?_, _, eq_ok_getD (halfIdentified.render {}) "" ?_, fun ⟨d', hd'⟩ => ?_⟩
  · rw [readText_ofList]
    decide +kernel
  · rw [halfIdentified, readText_ofList]
    decide +kernel
  · rw [hd'] at hnone
    cases hnone

end Manifest
