import Manifest.Proofs.Xml.LineEnd
import Manifest.Xml.Layout

/-! What layout adds. Indentation puts white space between nodes and takes away what stood there, so it
can be told from the nodes alone, and indenting twice is indenting once. Lines that are begun for the
children of an element can be written as texts among them. -/

set_option autoImplicit false

namespace Manifest.Xml.Markup

mutual

/-- Markup without the white space beside nodes. -/
def bare : Markup → Markup
  | .element name attributes children =>
    if hasNodes children then .element name attributes (bareAll children)
    else .element name attributes children
  | m => m

/-- Nodes side by side without the white space between them. -/
def bareAll : List Markup → List Markup
  | [] => []
  | m :: rest => if m.isBlank then bareAll rest else m.bare :: bareAll rest

end

theorem bareAll_append (a b : List Markup) : bareAll (a ++ b) = bareAll a ++ bareAll b := by
  induction a with
  | nil => rfl
  | cons m a ih =>
    rw [List.cons_append, bareAll, bareAll, ih]
    split <;> rfl

theorem isText_of_isBlank {m : Markup} (h : m.isBlank = true) : m.isText = true := by
  cases m <;> simp_all [isBlank, isText]

@[simp] theorem isText_bare (m : Markup) : m.bare.isText = m.isText := by
  cases m with
  | element name attributes children => rw [bare]; split <;> rfl
  | _ => rfl

@[simp] theorem isText_indent (unit : String) (level : Nat) (m : Markup) :
    (m.indent unit level).isText = m.isText := by
  cases m with
  | element name attributes children => rw [indent]; split <;> rfl
  | _ => rfl

theorem hasNodes_cons (m : Markup) (rest : List Markup) :
    hasNodes (m :: rest) = (!m.isText || hasNodes rest) := rfl

theorem hasNodes_append (a b : List Markup) : hasNodes (a ++ b) = (hasNodes a || hasNodes b) :=
  List.any_append

@[simp] theorem hasNodes_bareAll (ms : List Markup) : hasNodes (bareAll ms) = hasNodes ms := by
  induction ms with
  | nil => rfl
  | cons m ms ih =>
    rw [bareAll, hasNodes_cons]
    split
    · next hb => rw [ih, isText_of_isBlank hb, Bool.not_true, Bool.false_or]
    · rw [hasNodes_cons, ih, isText_bare]

@[simp] theorem isText_lineBreak (unit : String) (level : Nat) :
    (lineBreak unit level).isText = true := rfl

section
variable (unit : String)

/-! One step of indentation, by what stands in front. -/

theorem indentNodes_blank {m : Markup} (h : m.isBlank = true) (level : Nat) (gap : Bool)
    (rest : List Markup) :
    indentNodes unit level gap (m :: rest) =
      (if gap then [lineBreak unit (if hasNodes rest then level else level - 1)] else []) ++
        indentNodes unit level false rest := by
  cases m with
  | text value =>
    rw [isBlank] at h
    rw [indentNodes, if_pos h]
    cases hasNodes rest <;> rfl
  | _ => cases h

theorem indentNodes_text {m : Markup} (h : m.isText = true) (hb : m.isBlank = false) (level : Nat)
    (gap : Bool) (rest : List Markup) :
    indentNodes unit level gap (m :: rest) = m :: indentNodes unit level false rest := by
  cases m with
  | text value =>
    rw [isBlank] at hb
    rw [indentNodes, if_neg (by simp [hb])]
  | _ => cases h

theorem indentNodes_node {m : Markup} (h : m.isText = false) (level : Nat) (gap : Bool)
    (rest : List Markup) :
    indentNodes unit level gap (m :: rest) =
      (if gap then [lineBreak unit level] else []) ++
        m.indent unit (level + 1) :: indentNodes unit level true rest := by
  cases m with
  | text value => cases h
  | _ => rw [indentNodes]; simp

/-- What stands in front of some nodes: white space, other text, or a node. -/
theorem blank_or_text_or_node (m : Markup) :
    m.isBlank = true ∨ (m.isText = true ∧ m.isBlank = false) ∨ m.isText = false := by
  cases hb : m.isBlank with
  | true => exact Or.inl rfl
  | false => cases m.isText <;> simp

@[simp] theorem hasNodes_indentNodes (level : Nat) (gap : Bool) (ms : List Markup) :
    hasNodes (indentNodes unit level gap ms) = hasNodes ms := by
  induction ms generalizing gap with
  | nil => cases gap <;> rfl
  | cons m ms ih =>
    rcases blank_or_text_or_node m with hm | ⟨hm, hb⟩ | hm
    · rw [indentNodes_blank unit hm, hasNodes_append, ih, hasNodes_cons, isText_of_isBlank hm]
      cases gap <;> rfl
    · rw [indentNodes_text unit hm hb, hasNodes_cons, hasNodes_cons, ih]
    · rw [indentNodes_node unit hm, hasNodes_append, hasNodes_cons, hasNodes_cons, isText_indent, hm]
      cases gap <;> rfl

/-! Indentation adds white space and nothing else. -/

/-- Whether an indentation is white space. -/
def isWhite (unit : String) : Bool :=
  unit.toList.all Text.isBlank

theorem isBlank_lineBreak {unit : String} (h : isWhite unit = true) (level : Nat) :
    (lineBreak unit level).isBlank = true := by
  rw [lineBreak, isBlank, Text.isBlankText, String.toList_ofList, List.all_cons, List.all_eq_true.mpr]
  · decide
  · intro c hc
    rw [List.mem_flatten] at hc
    obtain ⟨l, hl, hc⟩ := hc
    rw [List.eq_of_mem_replicate hl] at hc
    exact List.all_eq_true.mp h c hc

mutual

theorem bare_indent {unit : String} (h : isWhite unit = true) (m : Markup) (level : Nat) :
    (m.indent unit level).bare = m.bare := by
  cases m with
  | element name attributes children =>
    rw [indent, bare]
    split
    · next hn =>
      rw [bare, hasNodes_indentNodes, if_pos hn, bareAll_indentNodes h children]
    · next hn => rw [bare, if_neg hn]
  | _ => rfl

theorem bareAll_indentNodes {unit : String} (h : isWhite unit = true) (ms : List Markup)
    (level : Nat) (gap : Bool) : bareAll (indentNodes unit level gap ms) = bareAll ms := by
  have hbreak : ∀ (gap : Bool) (level : Nat) (rest : List Markup),
      bareAll ((if gap then [lineBreak unit level] else []) ++ rest) = bareAll rest := by
    intro gap level rest
    cases gap with
    | true => rw [if_pos rfl, List.singleton_append, bareAll, if_pos (isBlank_lineBreak h level)]
    | false => rfl
  cases ms with
  | nil =>
    have hend := hbreak gap (level - 1) []
    rw [List.append_nil] at hend
    cases gap <;> exact hend
  | cons m ms =>
    have hrest := fun gap => bareAll_indentNodes h ms level gap
    rcases blank_or_text_or_node m with hm | ⟨hm, hb⟩ | hm
    · rw [indentNodes_blank unit hm, hbreak, hrest, bareAll, if_pos hm]
    · rw [indentNodes_text unit hm hb, bareAll, bareAll, hrest]
    · have hnb : m.isBlank = false := by
        cases hb : m.isBlank with
        | true => rw [isText_of_isBlank hb] at hm; cases hm
        | false => rfl
      have hnb' : (m.indent unit (level + 1)).isBlank = false := by
        cases hb : (m.indent unit (level + 1)).isBlank with
        | true =>
          have htext := isText_of_isBlank hb
          rw [isText_indent, hm] at htext
          cases htext
        | false => rfl
      rw [indentNodes_node unit hm, hbreak, bareAll, hnb', if_neg (by simp), bare_indent h m, hrest,
        bareAll, hnb, if_neg (by simp)]

end

theorem not_isBlank_of_not_isText {m : Markup} (h : m.isText = false) : m.isBlank = false := by
  cases hb : m.isBlank with
  | true =>
    rw [isText_of_isBlank hb] at h
    cases h
  | false => rfl

/-- Behind a text there is a node or nothing. -/
theorem eq_nil_or_node {ms : List Markup} (h : startsWithText ms = false) :
    ms = [] ∨ ∃ m rest, ms = m :: rest ∧ m.isText = false := by
  cases ms with
  | nil => exact Or.inl rfl
  | cons m rest => exact Or.inr ⟨m, rest, rfl, h⟩

mutual

/-- Indentation looks at nothing that it puts in itself. -/
theorem indent_bare (m : Markup) (hm : m.sound = true) (level : Nat) :
    m.bare.indent unit level = m.indent unit level := by
  cases m with
  | element name attributes children =>
    rw [sound, Bool.and_eq_true] at hm
    rw [bare, indent]
    split
    · next hn =>
      rw [indent, hasNodes_bareAll, if_pos hn,
        indentNodes_bareAll children hm.2 level true (by simp)]
    · next hn => rw [indent, if_neg hn]
  | _ => rfl

theorem indentNodes_bareAll (ms : List Markup) (hms : soundAll ms = true) (level : Nat)
    (gap : Bool) (hgap : gap = false → startsWithText ms = false) :
    indentNodes unit level gap (bareAll ms) = indentNodes unit level gap ms := by
  cases ms with
  | nil => rfl
  | cons m ms =>
    have hnext := soundAll_cons.mp hms
    have hrest := fun gap hgap => indentNodes_bareAll ms hnext.2.2 level gap hgap
    rcases blank_or_text_or_node m with hm | ⟨hm, hb⟩ | hm
    · -- the break stands for the white space, wherever it comes from
      have hstart := hnext.2.1 (isText_of_isBlank hm)
      cases gap with
      | false =>
        rw [startsWithText, isText_of_isBlank hm] at hgap
        cases hgap rfl
      | true =>
        rw [bareAll, if_pos hm, indentNodes_blank unit hm, hrest true (by simp), if_pos rfl]
        rcases eq_nil_or_node hstart with rfl | ⟨m', rest, rfl, hm'⟩
        · rfl
        · have hn : hasNodes (m' :: rest) = true := by rw [hasNodes_cons, hm']; rfl
          rw [indentNodes_node unit hm', indentNodes_node unit hm', hn, if_pos rfl]
          rfl
    · rw [bareAll, if_neg (by simp [hb])]
      have hbare : m.bare = m := by cases m <;> simp_all [bare, isText]
      rw [hbare, indentNodes_text unit hm hb, indentNodes_text unit hm hb,
        hrest false fun _ => hnext.2.1 hm]
    · rw [bareAll, if_neg (by simp [not_isBlank_of_not_isText hm]),
        indentNodes_node unit (by simpa using hm), indentNodes_node unit hm,
        hrest true (by simp), indent_bare m hnext.1]

end

/-- Markup with the same nodes is indented to the same markup. -/
theorem indent_eq_of_bare {a b : Markup} (ha : a.sound = true) (hb : b.sound = true)
    (h : a.bare = b.bare) (level : Nat) : a.indent unit level = b.indent unit level := by
  rw [← indent_bare unit a ha, h, indent_bare unit b hb]

variable {unit}

theorem isDocumentText_lineBreak (h : isDocumentText unit = true) (level : Nat) :
    isDocumentText (String.ofList ('\n' :: (List.replicate level unit.toList).flatten)) = true := by
  rw [isDocumentText, String.toList_ofList, List.all_cons, List.all_eq_true.mpr]
  · decide
  · intro c hc
    rw [List.mem_flatten] at hc
    obtain ⟨l, hl, hc⟩ := hc
    rw [List.eq_of_mem_replicate hl] at hc
    exact List.all_eq_true.mp h c hc

mutual

theorem sound_indent (h : isDocumentText unit = true) (m : Markup) (hm : m.sound = true)
    (level : Nat) : (m.indent unit level).sound = true := by
  cases m with
  | element name attributes children =>
    rw [indent]
    split
    · rw [sound, Bool.and_eq_true] at hm
      rw [sound, hm.1, (soundAll_indentNodes h children hm.2 level true (by simp)).1]
      rfl
    · exact hm
  | _ => exact hm

theorem soundAll_indentNodes (h : isDocumentText unit = true) (ms : List Markup)
    (hms : soundAll ms = true) (level : Nat) (gap : Bool)
    (hgap : gap = false → startsWithText ms = false) :
    soundAll (indentNodes unit level gap ms) = true ∧
      (gap = false → startsWithText (indentNodes unit level gap ms) = false) := by
  have hbreak : ∀ (level : Nat) (rest : List Markup), soundAll rest = true →
      startsWithText rest = false → soundAll (lineBreak unit level :: rest) = true := by
    intro level rest hrest hstart
    rw [soundAll_cons]
    exact ⟨isDocumentText_lineBreak h level, fun _ => hstart, hrest⟩
  cases ms with
  | nil =>
    cases gap with
    | true => exact ⟨hbreak (level - 1) [] rfl rfl, nofun⟩
    | false => exact ⟨rfl, fun _ => rfl⟩
  | cons m ms =>
    have hnext := soundAll_cons.mp hms
    have hrest := fun gap hgap => soundAll_indentNodes h ms hnext.2.2 level gap hgap
    rcases blank_or_text_or_node m with hm | ⟨hm, hb⟩ | hm
    · obtain ⟨hsound, hstart⟩ := hrest false fun _ => hnext.2.1 (isText_of_isBlank hm)
      rw [indentNodes_blank unit hm]
      cases gap with
      | true => exact ⟨hbreak _ _ hsound (hstart rfl), nofun⟩
      | false => exact ⟨hsound, hstart⟩
    · obtain ⟨hsound, hstart⟩ := hrest false fun _ => hnext.2.1 hm
      rw [indentNodes_text unit hm hb, soundAll_cons]
      exact ⟨⟨hnext.1, fun _ => hstart rfl, hsound⟩, hgap⟩
    · obtain ⟨hsound, -⟩ := hrest true (by simp)
      have hnode : soundAll (m.indent unit (level + 1) :: indentNodes unit level true ms) = true := by
        rw [soundAll_cons, isText_indent, hm]
        exact ⟨sound_indent h m hnext.1 (level + 1), nofun, hsound⟩
      rw [indentNodes_node unit hm]
      cases gap with
      | true =>
        refine ⟨hbreak level _ hnode ?_, nofun⟩
        exact (isText_indent unit (level + 1) m).trans hm
      | false => exact ⟨hnode, fun _ => (isText_indent unit (level + 1) m).trans hm⟩

end

/-- Indenting twice is indenting once. -/
theorem indent_indent (hwhite : isWhite unit = true) (h : isDocumentText unit = true) {m : Markup}
    (hm : m.sound = true) (level level' : Nat) :
    (m.indent unit level').indent unit level = m.indent unit level :=
  indent_eq_of_bare unit (sound_indent h m hm level') hm (bare_indent hwhite m level') level

end

/-! Lines that are begun while writing, written as texts. -/

/-- The beginning of a line at a level. -/
def newLine (level : Nat) : Markup :=
  .text (String.ofList ('\n' :: margin level))

mutual

/-- Markup at a level with the lines that are begun in it written out as texts. -/
def laid (level : Nat) : Markup → Markup
  | .element name attributes children =>
    if children.isEmpty || children.any isText then .element name attributes children
    else .element name attributes (laidLines (level + 1) children)
  | m => m

/-- Nodes on lines of their own, and the beginning of the line behind them. -/
def laidLines (level : Nat) : List Markup → List Markup
  | [] => [newLine (level - 1)]
  | m :: rest => newLine level :: m.laid level :: laidLines level rest

end

theorem renderAt_newLine (level : Nat) : (newLine level).renderAt none = '\n' :: margin level := by
  have hescape : ∀ n : Nat, (List.replicate n ' ').flatMap escapeTextChar = List.replicate n ' ' := by
    intro n
    induction n with
    | zero => rfl
    | succ n ih =>
      rw [List.replicate_succ, List.flatMap_cons, ih]
      rfl
  rw [newLine, renderAt, escapeText, String.toList_ofList, List.flatMap_cons, margin, hescape]
  rfl

mutual

theorem renderAt_laid (m : Markup) (level : Nat) :
    (m.laid level).renderAt none = m.renderAt (some level) := by
  cases m with
  | element name attributes children =>
    rw [laid]
    cases hempty : children.isEmpty with
    | true => simp [renderAt, hempty]
    | false =>
      cases htext : children.any isText with
      | true => simp [renderAt, htext]
      | false =>
        have hlines := renderInline_laidLines children (level + 1)
        have hne : (laidLines (level + 1) children).isEmpty = false := by
          cases children <;> rfl
        rw [Bool.or_false, if_neg (by simp), renderAt, renderAt, hempty, hne, htext]
        simp only [Bool.false_eq_true, if_false, ite_self]
        rw [hlines, Nat.add_sub_cancel]
        simp
  | _ => rfl

theorem renderInline_laidLines (ms : List Markup) (level : Nat) :
    renderInline (laidLines level ms) = '\n' :: (renderLines level ms ++ margin (level - 1)) := by
  cases ms with
  | nil =>
    rw [laidLines, renderInline, renderAt_newLine, renderInline, renderLines]
    simp
  | cons m ms =>
    rw [laidLines, renderInline, renderInline, renderAt_newLine, renderAt_laid m level,
      renderInline_laidLines ms level, renderLines]
    simp

end

@[simp] theorem isText_laid (m : Markup) (level : Nat) : (m.laid level).isText = m.isText := by
  cases m with
  | element name attributes children => rw [laid]; split <;> rfl
  | _ => rfl

theorem isDocumentText_newLine (level : Nat) : (newLine level).sound = true := by
  rw [newLine, sound, isDocumentText, String.toList_ofList, List.all_cons, List.all_eq_true.mpr]
  · decide
  · intro c hc
    rw [List.eq_of_mem_replicate hc]
    decide

mutual

theorem sound_laid (m : Markup) (hm : m.sound = true) (level : Nat) :
    (m.laid level).sound = true := by
  cases m with
  | element name attributes children =>
    rw [laid]
    split
    · exact hm
    · next hc =>
      rw [Bool.or_eq_true, not_or] at hc
      rw [sound, Bool.and_eq_true] at hm
      rw [sound, hm.1, soundAll_laidLines children hm.2 (by simpa using hc.2) (level + 1)]
      rfl
  | _ => exact hm

theorem soundAll_laidLines (ms : List Markup) (hms : soundAll ms = true)
    (hnodes : ∀ m ∈ ms, m.isText = false) (level : Nat) :
    soundAll (laidLines level ms) = true := by
  cases ms with
  | nil =>
    rw [laidLines, soundAll_cons]
    exact ⟨isDocumentText_newLine _, fun _ => rfl, rfl⟩
  | cons m ms =>
    have hnext := soundAll_cons.mp hms
    have hm : m.isText = false := hnodes m (by simp)
    have hrest := soundAll_laidLines ms hnext.2.2 (fun x hx => hnodes x (by simp [hx])) level
    rw [laidLines, soundAll_cons, soundAll_cons, isText_laid, hm]
    refine ⟨isDocumentText_newLine _, fun _ => ?_, sound_laid m hnext.1 level, nofun, hrest⟩
    exact (isText_laid m level).trans hm

end

/-- Indented markup begins no lines while it is written. -/
theorem laid_indent (unit : String) (m : Markup) (level level' : Nat) :
    (m.indent unit level).laid level' = m.indent unit level := by
  cases m with
  | element name attributes children =>
    have htexts : ∀ ms : List Markup, hasNodes ms = false →
        (ms.isEmpty || ms.any isText) = true := by
      intro ms hn
      cases ms with
      | nil => rfl
      | cons m ms =>
        rw [hasNodes_cons, Bool.or_eq_false_iff, Bool.not_eq_false'] at hn
        rw [List.any_cons, hn.1]
        simp
    rw [indent]
    split
    · have hany : (indentNodes unit level true children).any isText = true := by
        cases children with
        | nil => rfl
        | cons m ms =>
          rcases blank_or_text_or_node m with hm | ⟨hm, hb⟩ | hm
          · rw [indentNodes_blank unit hm]
            rfl
          · rw [indentNodes_text unit hm hb, List.any_cons, hm]
            rfl
          · rw [indentNodes_node unit hm]
            rfl
      rw [laid, hany, Bool.or_true, if_pos rfl]
    · next hn => rw [laid, htexts children (by simpa using hn), if_pos rfl]
  | _ => rfl

/-- Lines that were written as texts are begun no more. -/
theorem laid_laid (m : Markup) (level level' : Nat) : (m.laid level).laid level' = m.laid level := by
  cases m with
  | element name attributes children =>
    rw [laid]
    split
    · next hc => rw [laid, if_pos hc]
    · have htext : (laidLines (level + 1) children).any isText = true := by
        cases children <;> rfl
      rw [laid, htext, Bool.or_true, if_pos rfl]
  | _ => rfl

end Manifest.Xml.Markup
