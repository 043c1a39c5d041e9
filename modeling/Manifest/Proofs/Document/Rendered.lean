import Manifest.Document.Write
import Manifest.Proofs.Document.Assembled
import Manifest.Proofs.Document.Root

/-! What a document is written as: its declaration, its document type, and the markup of its nodes, each
on lines of their own. -/

set_option autoImplicit false

namespace Manifest

open Xml (Contents Markup writtenChars)
open Xml.Markup (readAll)

/-! The parts of a document that is written. -/

theorem markup_eq_ok {d : Document} {indent : Indent} {before after : List Markup} {root : Markup} :
    d.markup indent = .ok (before, root, after) ↔
      ∃ front e back m n, splitAtElement (fun _ => true) d.nodes = some (front, e, back) ∧
        Xml.qualify [] none 0 e.toNode = some (m, n) ∧ remarks front = .ok before ∧
        remarks back = .ok after ∧ indent.apply m = .ok root := by
  rw [Document.markup]
  split
  · next front e back hsplit =>
    split
    · next m n hm =>
      simp only [ok_bind_iff, hsplit]
      constructor
      · rintro ⟨before', hb, after', ha, root', hr, h⟩
        cases h
        exact ⟨front, e, back, m, n, rfl, hm, hb, ha, hr⟩
      · rintro ⟨front', e', back', m', n', h, hm', hb, ha, hr⟩
        cases h
        rw [hm] at hm'
        cases hm'
        exact ⟨before, hb, after, ha, root, hr, rfl⟩
    · next hno =>
      refine ⟨nofun, ?_⟩
      rintro ⟨front', e', back', m', n', h, hm', -⟩
      rw [hsplit] at h
      cases h
      exact absurd hm' (hno m' n')
  · next hno =>
    refine ⟨nofun, ?_⟩
    rintro ⟨front, e, back, m, n, h, -⟩
    exact absurd h (hno front e back)

/-- The characters of a document with a document type of a given text. -/
def layoutChars (declared : Option String) (doctype : Option String) (before : List Markup)
    (root : Markup) (after : List Markup) : List Char :=
  Xml.declarationChars declared ++
    ((doctype.map fun text => text.toList ++ ['\n']).getD [] ++
      (before.flatMap renderLine ++ (renderLine root ++ after.flatMap renderLine)))

/-- The encoding that a written document names, if it has a declaration. -/
def Document.declared (d : Document) (style : Style) : Option String :=
  if style.declaration then some d.encoding else none

theorem render_eq_ok {d : Document} {style : Style} {s : String} :
    d.render style = .ok s ↔
      ∃ before root after, d.markup style.indent = .ok (before, root, after) ∧
        (∀ text ∈ d.doctype, Xml.isDocumentText text = true) ∧
        s = String.ofList (layoutChars (d.declared style) d.doctype before root after) := by
  have hdeclaration : (if style.declaration then renderDeclaration d.encoding else []) =
      Xml.declarationChars (d.declared style) := by
    rw [Document.declared]
    split <;> rfl
  have hdoctype : ∀ chars, renderDoctype d.doctype = .ok chars ↔
      (∀ text ∈ d.doctype, Xml.isDocumentText text = true) ∧
        chars = (d.doctype.map fun text => text.toList ++ ['\n']).getD [] := by
    intro chars
    rw [renderDoctype.eq_def]
    cases d.doctype with
    | none => exact ⟨fun h => by cases h; exact ⟨nofun, rfl⟩, fun h => by rw [h.2]; rfl⟩
    | some text =>
      dsimp only
      split
      · next htext =>
        refine ⟨fun h => ?_, fun h => by rw [h.2]; rfl⟩
        cases h
        exact ⟨fun t ht => by cases ht; exact htext, rfl⟩
      · next htext => exact ⟨nofun, fun h => absurd (h.1 text rfl) htext⟩
  rw [Document.render]
  simp only [ok_bind_iff, hdeclaration]
  constructor
  · rintro ⟨⟨before, root, after⟩, hmarkup, chars, hchars, h⟩
    obtain ⟨htext, rfl⟩ := (hdoctype chars).mp hchars
    cases h
    refine ⟨before, root, after, hmarkup, htext, ?_⟩
    simp only [layoutChars, List.append_assoc]
  · rintro ⟨before, root, after, hmarkup, htext, rfl⟩
    refine ⟨(before, root, after), hmarkup, _, (hdoctype _).mpr ⟨htext, rfl⟩, ?_⟩
    simp only [layoutChars, List.append_assoc]
    rfl

/-- The characters of what a document is written as. -/
def Document.renderChars (d : Document) (style : Style) : Except WriteError (List Char) := do
  let (before, root, after) ← d.markup style.indent
  let doctype ← renderDoctype d.doctype
  let declaration := if style.declaration then renderDeclaration d.encoding else []
  return declaration ++ doctype ++ before.flatMap renderLine ++ renderLine root ++ after.flatMap renderLine

theorem render_eq_map (d : Document) (style : Style) :
    d.render style = (d.renderChars style).map String.ofList := by
  rw [Document.render, Document.renderChars]
  cases d.markup style.indent with
  | error e => rfl
  | ok parts => cases renderDoctype d.doctype <;> rfl

theorem getD_render (d : Document) (style : Style) :
    (d.render style).toOption.getD "" = String.ofList ((d.renderChars style).toOption.getD []) := by
  rw [render_eq_map]
  cases d.renderChars style <;> rfl

/-- Markup on a line of its own, with the lines that are begun in it written as texts. -/
theorem renderLine_eq (m : Markup) : renderLine m = Xml.lineOf (m.laid 0) := by
  rw [renderLine, Markup.render, Xml.lineOf, Markup.renderAt_laid]

/-- The lines of a document, with those that are begun inside the root written as texts. -/
theorem layoutChars_eq {declared : Option String} {doctype : Option (Xml.Doctype × String)}
    {before after : List Markup} (hbefore : ∀ m ∈ before, m.isRemark = true)
    (hafter : ∀ m ∈ after, m.isRemark = true) (root : Markup) :
    layoutChars declared (doctype.map fun x => x.1.render x.2) before root after =
      writtenChars declared doctype before (root.laid 0) after := by
  have hlines : ∀ ms : List Markup, (∀ m ∈ ms, m.isRemark = true) →
      ms.flatMap renderLine = ms.flatMap Xml.lineOf := by
    intro ms hms
    refine List.flatMap_congr fun m hm => ?_
    rw [renderLine_eq]
    cases m with
    | comment value => rfl
    | instruction target value => rfl
    | _ => cases hms _ hm
  rw [layoutChars, writtenChars, hlines before hbefore, hlines after hafter, renderLine_eq,
    Xml.doctypeChars, Option.map_map]
  rfl

/-! Comments and instructions beside the root. -/

theorem remarks_eq_ok {nodes : List Node} {ms : List Markup} :
    remarks nodes = .ok ms ↔
      ∃ n, Xml.qualifyNodes [] none 0 (nodes.filter Node.isRemark) = some (ms, n) := by
  rw [remarks]
  split
  · next markup n h =>
    rw [h]
    exact ⟨fun h => by cases h; exact ⟨n, rfl⟩, fun ⟨_, h⟩ => by cases h; rfl⟩
  · next h =>
    rw [h]
    exact ⟨nofun, fun ⟨_, h⟩ => by cases h⟩

theorem isSound_nil : Xml.Scope.isSound [] = true :=
  rfl

/-- What is written for comments and instructions is sound comments and instructions. -/
theorem isRemark_qualifyNodes {nodes : List Node} (hnodes : ∀ node ∈ nodes, node.isRemark = true)
    {next next' : Nat} {ms : List Markup}
    (h : Xml.qualifyNodes [] none next nodes = some (ms, next')) :
    ∀ m ∈ ms, m.isRemark = true ∧ m.sound = true := by
  induction nodes generalizing next next' ms with
  | nil =>
    cases h
    exact nofun
  | cons node rest ih =>
    rw [Xml.qualifyNodes] at h
    split at h
    · cases h
    · next m n hm =>
      have hremark : m.isRemark = true := by
        have hnode := hnodes node (by simp)
        cases node with
        | comment value =>
          rw [Xml.qualify] at hm
          split at hm
          · cases hm
            rfl
          · cases hm
        | instruction target value =>
          rw [Xml.qualify] at hm
          split at hm
          · cases hm
            rfl
          · cases hm
        | _ => cases hnode
      have hsound := Xml.sound_qualify isSound_nil node hm
      split at h
      · cases h
      · next ms' n' hms =>
        have hrest := ih (fun x hx => hnodes x (by simp [hx])) hms
        split at h
        · cases hremark
        · cases h
          intro x hx
          rcases List.mem_cons.mp hx with rfl | hx
          · exact ⟨hremark, hsound⟩
          · exact hrest x hx

/-! The layout of the root. -/

/-- Whether an indentation is none or white space. -/
def Indent.isWhite : Indent → Bool
  | .keep => true
  | .unit text => Markup.isWhite text
  | .invalid => false

/-- White space is all that indentation changes. -/
theorem apply_eq_ok {indent : Indent} (hwhite : indent.isWhite = true) {m root : Markup}
    (h : indent.apply m = .ok root) :
    root = m ∧ indent = .keep ∨ ∃ unit, indent = .unit unit ∧ Markup.isWhite unit = true ∧
      root = m.indent unit 1 ∧ (root = m ∨ Xml.isDocumentText unit = true) := by
  cases m with
  | element name attributes children =>
    rw [Indent.apply.eq_def] at h
    dsimp only at h
    split at h
    · next hn =>
      cases h
      cases indent with
      | keep => exact Or.inl ⟨rfl, rfl⟩
      | unit text =>
        refine Or.inr ⟨text, rfl, hwhite, ?_, Or.inl rfl⟩
        rw [Markup.indent, if_neg (by simpa using hn)]
      | invalid => cases hwhite
    · cases indent with
      | keep =>
        cases h
        exact Or.inl ⟨rfl, rfl⟩
      | unit text =>
        dsimp only at h
        split at h
        · next htext =>
          cases h
          exact Or.inr ⟨text, rfl, hwhite, rfl, Or.inr htext⟩
        · cases h
      | invalid => cases hwhite
  | _ =>
    cases h
    cases indent with
    | keep => exact Or.inl ⟨rfl, rfl⟩
    | unit text => exact Or.inr ⟨text, rfl, hwhite, rfl, Or.inl rfl⟩
    | invalid => cases hwhite

/-- Laying out leaves sound markup sound, and an element an element. -/
theorem sound_apply {indent : Indent} {m root : Markup} (h : indent.apply m = .ok root)
    (hm : m.sound = true) : root.sound = true ∧ root.isElement = m.isElement := by
  cases m with
  | element name attributes children =>
    rw [Indent.apply.eq_def] at h
    dsimp only at h
    split at h
    · cases h
      exact ⟨hm, rfl⟩
    · split at h
      · cases h
        exact ⟨hm, rfl⟩
      · cases h
      · split at h
        · next htext =>
          cases h
          refine ⟨Markup.sound_indent htext _ hm 1, ?_⟩
          rw [Markup.indent]
          split <;> rfl
        · cases h
  | _ =>
    cases h
    exact ⟨hm, rfl⟩

/--
Whatever document it is, its front and the markup of its nodes are written, each on lines of its own.
-/
theorem render_eq_written {d : Document} {type : Option (Xml.Doctype × String)}
    (hdoctype : d.doctype = type.map fun x => x.1.render x.2) {style : Style} {s : String}
    (hs : d.render style = .ok s) :
    ∃ before root after, d.markup style.indent = .ok (before, root, after) ∧
      s.toList = writtenChars (d.declared style) type before (root.laid 0) after ∧
      root.isElement = true ∧ root.sound = true ∧ (∀ m ∈ before, m.isRemark = true ∧ m.sound = true) ∧
      ∀ m ∈ after, m.isRemark = true ∧ m.sound = true := by
  obtain ⟨before, root, after, hmarkup, -, rfl⟩ := render_eq_ok.mp hs
  obtain ⟨front, e, back, m, n, -, hm, hbefore, hafter, hroot⟩ := markup_eq_ok.mp hmarkup
  obtain ⟨n₁, hbefore⟩ := remarks_eq_ok.mp hbefore
  obtain ⟨n₂, hafter⟩ := remarks_eq_ok.mp hafter
  have hfrontRemarks := isRemark_qualifyNodes (fun node hn => (List.mem_filter.mp hn).2) hbefore
  have hbackRemarks := isRemark_qualifyNodes (fun node hn => (List.mem_filter.mp hn).2) hafter
  obtain ⟨hsound, helement⟩ := sound_apply hroot (Xml.sound_qualify isSound_nil e.toNode hm)
  rw [Xml.isElement_qualify hm] at helement
  refine ⟨before, root, after, hmarkup, ?_, helement, hsound, hfrontRemarks, hbackRemarks⟩
  rw [String.toList_ofList, hdoctype, layoutChars_eq (fun x hx => (hfrontRemarks x hx).1)
    fun x hx => (hbackRemarks x hx).1]

theorem apply_keep (m : Markup) : Indent.keep.apply m = .ok m := by
  cases m with
  | element name attributes children => rw [Indent.apply]; split <;> rfl
  | _ => rfl

theorem apply_unit_again {unit : String} (hunit : Markup.isWhite unit = true) {m root : Markup}
    (hm : m.sound = true) (h : (Indent.unit unit).apply m = .ok root) :
    (Indent.unit unit).apply root = .ok root := by
  cases m with
  | element name attributes children =>
    have hsplit := h
    rw [Indent.apply] at hsplit
    split at hsplit
    · cases hsplit
      exact h
    · next hn =>
      split at hsplit
      · next htext =>
        have hagain := Markup.indent_indent hunit htext hm 1 1
        cases hsplit
        rw [Markup.indent, if_pos (by simpa using hn)] at hagain ⊢
        rw [Indent.apply, Markup.hasNodes_indentNodes, if_neg hn, if_pos htext, hagain]
      · cases hsplit
  | _ =>
    cases h
    rfl

/-- A layout that was applied changes nothing where it is applied again. -/
theorem apply_laid {indent : Indent} (hwhite : indent.isWhite = true) {m root : Markup}
    (hm : m.sound = true) (h : indent.apply m = .ok root) :
    ∃ root', indent.apply (root.laid 0) = .ok root' ∧ root'.laid 0 = root.laid 0 := by
  rcases apply_eq_ok hwhite h with ⟨rfl, rfl⟩ | ⟨unit, rfl, hunit, hroot, -⟩
  · exact ⟨root.laid 0, apply_keep _, Markup.laid_laid root 0 0⟩
  · refine ⟨root, ?_, rfl⟩
    have hlaid : root.laid 0 = root := by rw [hroot, Markup.laid_indent]
    rw [hlaid]
    exact apply_unit_again hunit hm h

theorem readsAs_apply {indent : Indent} (hwhite : indent.isWhite = true) {m root : Markup}
    (h : indent.apply m = .ok root) {reading : Xml.Scope} {node : Node} (hm : m.readsAs reading node) :
    root.readsAs reading node := by
  rcases apply_eq_ok hwhite h with ⟨rfl, -⟩ | ⟨unit, -, hunit, rfl, -⟩
  · exact hm
  · exact Markup.readsAs_indent hunit m hm 1

end Manifest
