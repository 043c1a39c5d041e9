import Manifest.Proofs.Document.RoundTrip
import Manifest.Proofs.Xml.Around

/-! Writing without an indentation. What is written for a document that was read is read with all its text,
to the last blank, unless the root holds nodes and no text: then each of them is put on a line of its own. -/

set_option autoImplicit false

namespace Manifest

open Xml (Contents Markup Scope qualify qualifyNodes)
open Xml.Markup (resolveAll rawAttribute)

mutual

/-- A node with the names and the attributes of its tags, without the namespaces that were declared. -/
def Node.plain : Node → Node
  | .element tag children =>
    .element { name := tag.name, attributes := tag.attributes } (plainAll children)
  | node => node

def plainAll : List Node → List Node
  | [] => []
  | node :: rest => node.plain :: plainAll rest

end

theorem plainAll_eq_map (nodes : List Node) : plainAll nodes = nodes.map Node.plain := by
  induction nodes with
  | nil => rfl
  | cons node rest ih => rw [plainAll, ih, List.map_cons]

@[simp] theorem Node.isText_plain (node : Node) : node.plain.isText = node.isText := by
  cases node <;> rfl

mutual

theorem Node.calm_plain (node : Node) : node.plain.calm ↔ node.calm := by
  cases node with
  | element tag children => rw [Node.plain, Node.calm, Node.calm, calmAll_plainAll children]
  | _ => rfl

theorem calmAll_plainAll (nodes : List Node) : calmAll (plainAll nodes) ↔ calmAll nodes := by
  cases nodes with
  | nil => rfl
  | cons node rest =>
    rw [plainAll, calmAll, calmAll, Node.calm_plain node, calmAll_plainAll rest]

end

/-! What is read of the markup of nodes that were read. -/

namespace Xml

/-- Nodes that were read are written one by one. -/
theorem qualifyNodes_cons_of_apart {scope : Scope} {parent : Option String} {next next' : Nat}
    {node : Node} {rest : List Node} (ha : apart (node :: rest)) {ms : List Markup}
    (h : qualifyNodes scope parent next (node :: rest) = some (ms, next')) :
    ∃ m n ms', qualify scope parent next node = some (m, n) ∧
      qualifyNodes scope parent n rest = some (ms', next') ∧ ms = m :: ms' := by
  have hmeet : ∀ a ∈ [node].getLast?, ∀ b ∈ rest.head?, a.isText = true → b.isText = false := by
    rintro a ⟨⟩ b hb
    exact (List.isChain_cons.mp ha).1 b hb
  obtain ⟨mf, n, ms', hf, hr, rfl⟩ := (@qualifyNodes_append scope parent next next' [node] rest ms hmeet).mp h
  obtain ⟨m, n', mb, hm, hb, rfl⟩ := qualifyNodes_cons_eq_some.mp hf
  cases hb
  refine ⟨m, n, ms', hm, hr, ?_⟩
  cases m <;> rfl

theorem map_isText_qualifyNodes {scope : Scope} {parent : Option String} {next next' : Nat}
    {nodes : List Node} (ha : apart nodes) {ms : List Markup}
    (h : qualifyNodes scope parent next nodes = some (ms, next')) :
    ms.map Markup.isText = nodes.map Node.isText := by
  induction nodes generalizing next ms with
  | nil =>
    cases h
    rfl
  | cons node rest ih =>
    obtain ⟨m, n, ms', hm, hms, rfl⟩ := qualifyNodes_cons_of_apart ha h
    rw [List.map_cons, List.map_cons, isText_qualify hm, ih (List.isChain_cons.mp ha).2 hms]

namespace Markup

theorem isVoid_qualify {scope outer : Scope} {parent : Option String} {next next' : Nat} {node : Node}
    (hin : node.readIn outer) {m : Markup} (h : qualify scope parent next node = some (m, next')) :
    m.isVoid = false := by
  cases node with
  | text value =>
    rw [qualify] at h
    split at h
    · cases h
      rw [isVoid, ← Bool.not_eq_true, String.isEmpty_iff]
      exact hin
    · cases h
  | _ =>
    have htext := isText_qualify h
    cases m with
    | text value => cases htext
    | _ => rfl

mutual

/-- What is written for a node that was read is read with all that the node holds. -/
theorem plain_qualify {scope reading outer : Scope} (hscope : scope.isSound = true)
    (hxmlns : scope.stands? (some "xmlns") = none) (hagrees : reading.Agrees scope)
    {parent : Option String} (hparent : ∀ u ∈ parent, u ≠ "" ∧ u ≠ xmlnsUri) (node : Node)
    (hn : node.ordinary) (hin : node.readIn outer) {next next' : Nat} {m : Markup}
    (h : qualify scope parent next node = some (m, next')) : (m.resolve reading).plain = node.plain := by
  cases node with
  | element tag children =>
    obtain ⟨htag, ha, hchildren⟩ := hn
    obtain ⟨⟨_, _, -, -, -, -, hinner⟩, -⟩ := hin
    rw [qualify] at h
    split at h
    · cases h
    · next w hw =>
      have hsound := (isSound_qualifyTag hscope hw).2.1
      obtain ⟨declared, own, xs, next₁, hc, rfl⟩ := htag.chosen hscope hparent hw
      have hsame := hc.agrees_scope next₁
      obtain ⟨hread, hresolved, -⟩ := hc.resolveTag_chosenTag hagrees hscope hxmlns next₁
      split at h
      · cases h
      · next ms n hms =>
        cases h
        have hrest := plain_qualifyNodes hsound
          (by rw [hsame]; exact stands?_xmlns_append (fun b hb => (hc.declares b hb).toAllowed) hxmlns)
          ((hagrees.append declared).trans hsame.symm) (htag.spaced_or hparent) children ha hchildren
          hinner hms
        rw [← hread] at hrest
        rw [resolve, Node.plain, Node.plain, hrest, hresolved, htag.keyedAttributes hc.expand]
  | text value =>
    rw [qualify] at h
    split at h
    · cases h
      rfl
    · cases h
  | comment value =>
    rw [qualify] at h
    split at h
    · cases h
      rfl
    · cases h
  | instruction target value =>
    rw [qualify] at h
    split at h
    · cases h
      rw [resolve, show skipSpace value.toList = value.toList from hin, String.ofList_toList]
    · cases h

theorem plain_qualifyNodes {scope reading outer : Scope} (hscope : scope.isSound = true)
    (hxmlns : scope.stands? (some "xmlns") = none) (hagrees : reading.Agrees scope)
    {parent : Option String} (hparent : ∀ u ∈ parent, u ≠ "" ∧ u ≠ xmlnsUri) (nodes : List Node)
    (ha : apart nodes) (hn : ordinaries nodes) (hin : readsIn outer nodes) {next next' : Nat}
    {ms : List Markup} (h : qualifyNodes scope parent next nodes = some (ms, next')) :
    plainAll (resolveAll reading ms) = plainAll nodes := by
  cases nodes with
  | nil =>
    cases h
    rfl
  | cons node rest =>
    obtain ⟨m, n, ms', hm, hms, rfl⟩ := qualifyNodes_cons_of_apart ha h
    rw [resolveAll, isVoid_qualify hin.1 hm, if_neg (by simp), plainAll, plainAll,
      plain_qualify hscope hxmlns hagrees hparent node hn.1 hin.1 hm,
      plain_qualifyNodes hscope hxmlns hagrees hparent rest (List.isChain_cons.mp ha).2 hn.2 hin.2 hms]

end

theorem any_isText_laidLines (reading : Scope) (level : Nat) (ms : List Markup) :
    (resolveAll reading (laidLines level ms)).any Node.isText = true := by
  have hline : ∀ level rest, (resolveAll reading (newLine level :: rest)).any Node.isText = true := by
    intro level rest
    have hvoid : (newLine level).isVoid = false := by
      rw [newLine, isVoid, ← Bool.not_eq_true, String.isEmpty_iff]
      simp [String.ext_iff]
    rw [resolveAll, hvoid, if_neg (by simp)]
    rfl
  cases ms with
  | nil => exact hline _ _
  | cons m ms => exact hline _ _

/-- On the top level, it is so unless lines are begun in it. -/
theorem plain_laid_iff {e : Element} (hn : e.toNode.ordinary) {outer : Scope}
    (hin : e.toNode.readIn outer) {m : Markup} {n : Nat} (h : qualify [] none 0 e.toNode = some (m, n)) :
    ((m.laid 0).resolve []).plain = e.toNode.plain ↔
      e.children = [] ∨ e.children.any Node.isText = true := by
  have hplain := @plain_qualify [] [] outer rfl rfl (Scope.Agrees.refl _) none (by simp) e.toNode hn hin _ _ _ h
  obtain ⟨name, attributes, ms, rfl, htexts⟩ : ∃ name attributes ms,
      m = .element name attributes ms ∧ ms.map isText = e.children.map Node.isText := by
    rw [Element.toNode, qualify] at h
    split at h
    · cases h
    · split at h
      · cases h
      · next hms =>
        cases h
        exact ⟨_, _, _, rfl, map_isText_qualifyNodes hn.2.1 hms⟩
  have hany : ms.any isText = e.children.any Node.isText := by
    have hmaps := congrArg (List.any · id) htexts
    rwa [List.any_map, List.any_map] at hmaps
  have hempty : ms.isEmpty = e.children.isEmpty := by
    rw [← List.isEmpty_map, htexts, List.isEmpty_map]
  rw [laid]
  split
  · next hinline =>
    rw [hany, hempty, Bool.or_eq_true, List.isEmpty_iff] at hinline
    exact iff_of_true hplain hinline
  · next hlines =>
    rw [hany, hempty, Bool.or_eq_true, List.isEmpty_iff] at hlines
    refine iff_of_false (fun hsame => hlines (.inr ?_)) hlines
    -- the line that is begun in front of the first node is a text
    rw [resolve, Element.toNode, Node.plain, Node.plain, Node.element.injEq, plainAll_eq_map,
      plainAll_eq_map] at hsame
    have htext := congrArg (List.any · Node.isText) hsame.2
    simp only [List.any_map, Function.comp_def, Node.isText_plain] at htext
    rw [← htext]
    exact any_isText_laidLines _ _ ms

end Markup

end Xml

/-! The document. -/

/-- Beside the root nothing is laid out. -/
theorem Document.IsOrdinary.plain_remarks {d : Document} {contents : Contents}
    (hd : d.IsOrdinary contents) (hin : readsIn [] d.nodes) {nodes : List Node}
    (hremarks : ∀ node ∈ nodes, node.isRemark = true) (hmem : ∀ node ∈ nodes, node ∈ d.nodes)
    {ms : List Markup} (hms : remarks nodes = .ok ms) :
    (resolveAll [] ms).map Node.plain = nodes.map Node.plain := by
  obtain ⟨n, hms⟩ := remarks_eq_ok.mp hms
  rw [List.filter_eq_self.mpr hremarks] at hms
  rw [← plainAll_eq_map, ← plainAll_eq_map]
  exact Markup.plain_qualifyNodes isSound_nil rfl (Scope.Agrees.refl _) (by simp) nodes
    (apart_of_not_isText fun node hn => hd.noText node (hmem node hn))
    (ordinaries_iff.mpr fun node hn => ordinaries_iff.mp hd.ordinary node (hmem node hn))
    (readsIn_iff.mpr fun node hn => readsIn_iff.mp hin node (hmem node hn)) hms

/-- The markup of an ordinary document is read with all that it holds unless lines are begun in the root. -/
theorem Document.WrittenAs.plain_reread_iff {d : Document} {contents : Contents}
    (hd : d.IsOrdinary contents) (hin : readsIn [] d.nodes) {declaration : Bool}
    {before after : List Markup} {root : Markup} {s : String}
    (h : d.WrittenAs contents { indent := .keep, declaration := declaration } before root after s) :
    (d.reread contents { indent := .keep, declaration := declaration } before root after s).nodes.map
        Node.plain = d.nodes.map Node.plain ↔
      ∀ root ∈ d.root?, root.children = [] ∨ root.children.any Node.isText = true := by
  obtain ⟨front, e, back, m, n, hsplit, hm, hbefore, hafter, hroot⟩ := markup_eq_ok.mp h.markup
  rw [apply_keep, Except.ok.injEq] at hroot
  subst hroot
  obtain ⟨hnodes, hfront, hback, -⟩ := hd.split hsplit
  have hbeforePlain := hd.plain_remarks hin hfront (fun node hn => by rw [hnodes]; simp [hn]) hbefore
  have hafterPlain := hd.plain_remarks hin hback (fun node hn => by rw [hnodes]; simp [hn]) hafter
  have hmem : e.toNode ∈ d.nodes := by rw [hnodes]; simp
  have hroot : d.root? = some e := by
    rw [Document.root?, hnodes, elementsOf_append, elementsOf_of_splitAtElement hsplit]
    rfl
  have hvoid : (m.laid 0).isVoid = false := by
    cases hlaid : m.laid 0 with
    | text value =>
      have helement := isElement_laid h.isElement 0
      rw [hlaid] at helement
      cases helement
    | _ => rfl
  have hreread : (d.reread contents { indent := .keep, declaration := declaration } before m after s).nodes =
      resolveAll [] before ++ (m.laid 0).resolve [] :: resolveAll [] after := by
    rw [Document.reread, documentOf]
    dsimp only
    rw [Markup.unifiedAll_of_readAll _ h.read, Markup.resolveAll_append, resolveAll, hvoid,
      if_neg (by simp)]
  rw [hreread, hnodes, List.map_append, List.map_append, List.map_cons, List.map_cons, hbeforePlain,
    hafterPlain, hroot]
  rw [List.append_cancel_left_eq, List.cons.injEq, Markup.plain_laid_iff
    (ordinaries_iff.mp hd.ordinary _ hmem) (readsIn_iff.mp hin _ hmem) hm]
  simp

/-- Whatever is read of what was written has no line end but line feeds where it is kept verbatim. -/
theorem Document.HasRead.calm_reread {d : Document} {contents : Contents} (h : d.HasRead contents)
    {style : Style} {s : String} (hs : d.render style = .ok s) {source : Option String} {d' : Document}
    (hread : readText s source = .ok d') : calmAll d'.nodes := by
  have hin := h.readsIn
  obtain ⟨cs, encoding, hcontents, hencoding, rfl⟩ := h.documentOf_eq
  have htyped : (documentOf contents encoding).doctype =
      ((documentOf contents encoding).typed contents).map fun x => x.1.render x.2 := by
    rw [Document.typed, Option.map_map]
    rfl
  obtain ⟨before, root, after, hmarkup, hchars, helement, hsound, hbefore, hafter⟩ :=
    render_eq_written htyped hs
  obtain ⟨front, e, back, m, n, hsplit, hm, -, -, -⟩ := markup_eq_ok.mp hmarkup
  have he : Xml.Ordinary e.tag := by
    have hmem : e.toNode ∈ (documentOf contents encoding).nodes := by
      rw [(splitAtElement_eq_some hsplit).1]
      simp
    obtain ⟨⟨name, attributes, hname, hattributes, hnodup, htag, -⟩, -⟩ := readsIn_iff.mp hin _ hmem
    rw [htag]
    exact (Xml.native_resolveTag (by simp) hname hattributes hnodup).1
  obtain ⟨-, hquotable⟩ := Xml.readLines_front (Text.not_mem_unifyLineEnds _) hcontents
  obtain ⟨contents', hcontents', rfl⟩ := readText_eq_ok hread
  have hdeclared : ∀ name ∈ (documentOf contents encoding).declared style,
      '"' ∉ name.toList ∧ '\r' ∉ name.toList := by
    intro name hname
    rw [Document.declared] at hname
    split at hname
    · cases hname
      exact not_mem_encoding hencoding
    · cases hname
  have hfound := hcontents'
  rw [hchars] at hfound
  have hdoctype := Xml.doctype_readDocument_written hdeclared (quotable_typed hquotable hsplit he hm)
    hbefore (isElement_laid helement 0) (Markup.sound_laid root hsound 0) hafter hfound
  refine (Document.HasRead.text hread hcontents').calm fun type htype => ?_
  rw [hdoctype] at htype
  obtain ⟨x, -, rfl⟩ := Option.map_eq_some_iff.mp htype
  rfl

/--
What is written without an indentation for a document that was read is read with the same names,
attributes, text, comments and instructions, blank text and all, exactly when it can be read, no carriage
return is kept verbatim, and the root is empty or holds text.
-/
theorem plain_readText_render_iff {d : Document} {contents : Contents} (h : d.HasRead contents)
    (declaration : Bool) (source : Option String) :
    (∃ s d', d.render { indent := .keep, declaration := declaration } = .ok s ∧
        readText s source = .ok d' ∧ d'.nodes.map Node.plain = d.nodes.map Node.plain) ↔
      (∃ s, d.render { indent := .keep, declaration := declaration } = .ok s) ∧
        (∀ type ∈ contents.doctype, type.id.isComplete = true) ∧
        (declaration = true → Xml.isEncodingName d.encoding.toList = true) ∧ calmAll d.nodes ∧
        ∀ root ∈ d.root?, root.children = [] ∨ root.children.any Node.isText = true := by
  constructor
  · rintro ⟨s, d', hs, hread, hplain⟩
    have hcalm : calmAll d.nodes := by
      rw [← calmAll_plainAll, plainAll_eq_map, ← hplain, ← plainAll_eq_map, calmAll_plainAll]
      exact h.calm_reread hs hread
    have hd := h.isOrdinary_of_calm hcalm
    obtain ⟨before, root, after, hwritten⟩ := hd.render_eq rfl hs
    obtain ⟨hreadText, hnot⟩ := hwritten.readText_eq hd source
    have hcan : d.CanBeRead contents { indent := .keep, declaration := declaration } := by
      by_contra hno
      rw [hnot hno] at hread
      cases hread
    rw [hreadText hcan] at hread
    cases hread
    exact ⟨⟨s, hs⟩, hcan.doctype, hcan.encoding, hcalm,
      (hwritten.plain_reread_iff hd h.readsIn).mp hplain⟩
  · rintro ⟨⟨s, hs⟩, htype, hencoding, hcalm, hroot⟩
    have hd := h.isOrdinary_of_calm hcalm
    obtain ⟨before, root, after, hwritten⟩ := hd.render_eq rfl hs
    exact ⟨s, _, hs, (hwritten.readText_eq hd source).1 ⟨htype, hencoding, h.depth_le⟩,
      (hwritten.plain_reread_iff hd h.readsIn).mpr hroot⟩

def spaced : Document :=
  (readText "<a> <b c='d'/></a>" none).toOption.getD {}

set_option maxRecDepth 10000 in
theorem plain_readText_render_spaced :
    ∃ contents, spaced.HasRead contents ∧
      ∃ s d', spaced.render { indent := .keep, declaration := true } = .ok s ∧
        readText s none = .ok d' ∧ d'.nodes.map Node.plain = spaced.nodes.map Node.plain := by
  have hread := eq_ok_getD (readText "<a> <b c='d'/></a>" none) {} (by decide +kernel)
  obtain ⟨contents, hcontents, -⟩ := readText_eq_ok hread
  have hdoctype : contents.doctype = none := by
    have hnone : (Xml.readDocument "<a> <b c='d'/></a>".toList).bind (·.doctype) = none := by
      decide +kernel
    rwa [hcontents] at hnone
  have hhas : spaced.HasRead contents := .text hread hcontents
  refine ⟨contents, hhas, (plain_readText_render_iff hhas true none).mpr
    ⟨⟨_, eq_ok_getD (spaced.render { indent := .keep, declaration := true }) "" (by decide +kernel)⟩,
      ?_, fun _ => ?_, hhas.calm (Contents.withoutSubset_of_doctype_eq_none hdoctype), ?_⟩⟩
  · rw [hdoctype]
    rintro _ ⟨⟩
  · decide +kernel
  · have htext : spaced.root?.all (fun root => root.children.any Node.isText) = true := by decide +kernel
    intro root hroot
    rw [Option.mem_def.mp hroot, Option.all_some] at htext
    exact .inr htext

/-- A document whose root holds a node and no text. -/
def crowded : Document :=
  (readText "<a><b/></a>" none).toOption.getD {}

set_option maxRecDepth 10000 in
/-- The node is put on a line of its own, so that blank text is read in front of it and behind it. -/
theorem crowded_not_plain :
    readText "<a><b/></a>" none = .ok crowded ∧
      ∃ s d', crowded.render { indent := .keep } = .ok s ∧ readText s none = .ok d' ∧
        d'.nodes.map Node.plain ≠ crowded.nodes.map Node.plain := by
  have hrender := eq_ok_getD (crowded.render { indent := .keep }) "" (by decide +kernel)
  have hread := eq_ok_getD (readText ((crowded.render { indent := .keep }).toOption.getD "") none) {}
    (by decide +kernel)
  refine ⟨eq_ok_getD _ {} (by decide +kernel), _, _, hrender, hread, fun hplain => ?_⟩
  have hcounts := congrArg (fun nodes => (elementsOf nodes).map fun e => e.children.length) hplain
  exact absurd hcounts (by decide +kernel)

end Manifest
