import Manifest.Proofs.Xml.Token
import Manifest.Text.LineEnd

/-! Line ends in what was written. Names, texts and values are written without carriage returns; in
comments and instructions they stand as they are and are read as line feeds. -/

set_option autoImplicit false

namespace Manifest

namespace Text

theorem unifyLineEnds_cons {c : Char} (h : c ≠ '\r') (cs : List Char) :
    unifyLineEnds (c :: cs) = c :: unifyLineEnds cs := by
  rw [unifyLineEnds]
  · simp [h]
  · intro rest hr
    exact absurd hr h

theorem unifyLineEnds_append_of_not_mem {cs : List Char} (h : '\r' ∉ cs) (rest : List Char) :
    unifyLineEnds (cs ++ rest) = cs ++ unifyLineEnds rest := by
  induction cs with
  | nil => rfl
  | cons c cs ih =>
    have hc : c ≠ '\r' := by
      rintro rfl
      exact h (by simp)
    rw [List.cons_append, unifyLineEnds_cons hc, ih fun hx => h (by simp [hx]), List.cons_append]

/-- A line end is not cut in two where the rest does not begin with a line feed. -/
theorem unifyLineEnds_append_cons (cs : List Char) {c : Char} (hc : c ≠ '\n') (rest : List Char) :
    unifyLineEnds (cs ++ c :: rest) = unifyLineEnds cs ++ unifyLineEnds (c :: rest) := by
  fun_induction unifyLineEnds cs with
  | case1 => rfl
  | case2 cs ih => rw [List.cons_append, List.cons_append, unifyLineEnds, ih, List.cons_append]
  | case3 d cs hd ih =>
    rw [List.cons_append, unifyLineEnds, ih, List.cons_append]
    intro more hr
    cases cs with
    | nil =>
      intro hmore
      rw [List.nil_append, List.cons.injEq] at hmore
      exact hc hmore.1
    | cons e es =>
      intro hmore
      rw [List.cons_append, List.cons.injEq] at hmore
      exact hd es hr (by rw [hmore.1])

/-- Line ends are unified on both sides of a seam; one that stands across it becomes one line feed. -/
theorem unifyLineEnds_append (a b : List Char) :
    unifyLineEnds (a ++ b) = unifyLineEnds a ++ unifyLineEnds b ∨
      ∃ rest, unifyLineEnds b = '\n' :: rest ∧ unifyLineEnds (a ++ b) = unifyLineEnds a ++ rest := by
  cases b with
  | nil => left; simp [unifyLineEnds]
  | cons c b =>
    by_cases hc : c = '\n'
    · subst hc
      have hnewline : unifyLineEnds ('\n' :: b) = '\n' :: unifyLineEnds b :=
        unifyLineEnds_cons (by decide) b
      have hcons : ∀ {c : Char} {front all : List Char},
          (all = front ++ unifyLineEnds ('\n' :: b) ∨
            ∃ rest, unifyLineEnds ('\n' :: b) = '\n' :: rest ∧ all = front ++ rest) →
          c :: all = c :: front ++ unifyLineEnds ('\n' :: b) ∨
            ∃ rest, unifyLineEnds ('\n' :: b) = '\n' :: rest ∧ c :: all = c :: front ++ rest := by
        rintro c front all (rfl | ⟨rest, hb, rfl⟩)
        · exact .inl rfl
        · exact .inr ⟨rest, hb, rfl⟩
      fun_induction unifyLineEnds a with
      | case1 => exact .inl rfl
      | case2 a ih => exact hcons ih
      | case3 d a hd ih =>
        by_cases hlast : d = '\r' ∧ a = []
        · obtain ⟨rfl, rfl⟩ := hlast
          exact .inr ⟨unifyLineEnds b, hnewline, rfl⟩
        · rw [List.cons_append, unifyLineEnds]
          · exact hcons ih
          · intro more hr hmore
            cases a with
            | nil => exact hlast ⟨hr, rfl⟩
            | cons e a => exact hd a hr (by rw [(List.cons.inj hmore).1])
    · exact .inl (unifyLineEnds_append_cons a hc b)

theorem not_mem_unifyLineEnds (cs : List Char) : '\r' ∉ unifyLineEnds cs := by
  fun_induction unifyLineEnds cs with
  | case1 => simp
  | case2 cs ih => simpa using ih
  | case3 d cs hd ih =>
    rw [List.mem_cons, not_or]
    refine ⟨?_, ih⟩
    split
    · decide
    · next hne => exact fun h => hne (by rw [← h]; rfl)

theorem head?_unifyLineEnds {cs : List Char} {c : Char} (hc : c ≠ '\n')
    (h : (unifyLineEnds cs).head? = some c) : cs.head? = some c := by
  rw [unifyLineEnds.eq_def] at h
  split at h
  · cases h
  · rw [List.head?_cons, Option.some.injEq] at h
    exact absurd h.symm hc
  · rw [List.head?_cons, Option.some.injEq] at h
    split at h
    · exact absurd h.symm hc
    · rw [List.head?_cons, h]

theorem getLast?_unifyLineEnds {cs : List Char} {c : Char} (hc : c ≠ '\n')
    (h : (unifyLineEnds cs).getLast? = some c) : cs.getLast? = some c := by
  rcases List.eq_nil_or_concat cs with rfl | ⟨front, last, rfl⟩
  · exact h
  · rw [List.concat_eq_append] at h ⊢
    by_cases hl : last = '\n'
    · subst hl
      exfalso
      -- a line feed at the end stays there
      have hend : ∀ cs : List Char, (unifyLineEnds (cs ++ ['\n'])).getLast? = some '\n' := by
        intro cs
        fun_induction unifyLineEnds cs with
        | case1 => rfl
        | case2 cs ih =>
          rw [List.cons_append, List.cons_append, unifyLineEnds, List.getLast?_cons, ih]
          rfl
        | case3 d cs hd ih =>
          by_cases hcr : d = '\r' ∧ cs = []
          · rw [hcr.1, hcr.2]
            rfl
          · rw [List.cons_append, unifyLineEnds, List.getLast?_cons, ih]
            · rfl
            · intro more hr hmore
              cases cs with
              | nil => exact hcr ⟨hr, rfl⟩
              | cons e es =>
                rw [List.cons_append, List.cons.injEq] at hmore
                exact hd es hr (by rw [hmore.1])
      rw [hend front, Option.some.injEq] at h
      exact hc h.symm
    · rw [unifyLineEnds_append_cons front hl, List.getLast?_append] at h
      by_cases hr : last = '\r'
      · subst hr
        simp [unifyLineEnds] at h
        exact absurd h.symm hc
      · rw [unifyLineEnds_cons hr] at h
        simpa [unifyLineEnds] using h

theorem all_isChar_unifyLineEnds {cs : List Char} (h : cs.all Xml.isChar = true) :
    (unifyLineEnds cs).all Xml.isChar = true := by
  fun_induction unifyLineEnds cs with
  | case1 => rfl
  | case2 cs ih =>
    simp only [List.all_cons, Bool.and_eq_true] at h
    rw [List.all_cons, ih h.2.2, Bool.and_true]
    decide
  | case3 d cs hd ih =>
    rw [List.all_cons, Bool.and_eq_true] at h
    rw [List.all_cons, ih h.2, Bool.and_true]
    split
    · decide
    · exact h.1

end Text

namespace Xml

open Text (unifyLineEnds)

theorem hasWord_cons (word : List Char) (c : Char) (cs : List Char) :
    hasWord word (c :: cs) = ((skipWord word (c :: cs)).isSome || hasWord word cs) := by
  rw [hasWord, splitAtWord]
  cases skipWord word (c :: cs) with
  | some rest => rfl
  | none => simp [hasWord]

theorem isSome_skipWord_pair (a b c : Char) (cs : List Char) :
    (skipWord [a, b] (c :: cs)).isSome = (a == c && cs.head? == some b) := by
  cases cs with
  | nil =>
    rw [skipWord]
    cases a == c <;> rfl
  | cons d ds =>
    rw [skipWord, skipWord, skipWord]
    by_cases hac : a = c
    · by_cases hbd : b = d
      · simp [hac, hbd]
      · simp [hac, hbd, Ne.symm hbd]
    · simp [hac]

/-- A mark of two characters does not come up where line ends are unified. -/
theorem hasWord_unifyLineEnds {a b : Char} (ha : a ≠ '\n') (hb : b ≠ '\n') {cs : List Char}
    (h : hasWord [a, b] cs = false) : hasWord [a, b] (unifyLineEnds cs) = false := by
  fun_induction unifyLineEnds cs with
  | case1 => rfl
  | case2 cs ih =>
    rw [hasWord_cons, hasWord_cons, Bool.or_eq_false_iff, Bool.or_eq_false_iff] at h
    rw [hasWord_cons, ih h.2.2, isSome_skipWord_pair, beq_false_of_ne ha]
    rfl
  | case3 d cs hd ih =>
    rw [hasWord_cons, Bool.or_eq_false_iff, isSome_skipWord_pair] at h
    rw [hasWord_cons, ih h.2, isSome_skipWord_pair, Bool.or_false]
    split
    · rw [beq_false_of_ne ha]
      rfl
    · by_cases had : a = d
      · rw [had, beq_self_eq_true, Bool.true_and] at h ⊢
        rw [beq_eq_false_iff_ne] at h ⊢
        exact fun hu => h.1 (Text.head?_unifyLineEnds hb hu)
      · simp [had]

/-- A comment or instruction with its line ends unified. -/
def unifiedText (value : String) : String :=
  String.ofList (unifyLineEnds value.toList)

@[simp] theorem toList_unifiedText (value : String) :
    (unifiedText value).toList = unifyLineEnds value.toList :=
  String.toList_ofList

theorem isComment_unifiedText {value : String} (h : isComment value = true) :
    isComment (unifiedText value) = true := by
  simp only [isComment, Bool.and_eq_true, Bool.not_eq_true', bne_iff_ne, isDocumentText,
    toList_unifiedText] at h ⊢
  refine ⟨⟨Text.all_isChar_unifyLineEnds h.1.1, ?_⟩, ?_⟩
  · exact hasWord_unifyLineEnds (by decide) (by decide) h.1.2
  · exact fun hl => h.2 (Text.getLast?_unifyLineEnds (by decide) hl)

theorem isInstruction_unifiedText {target value : String} (h : isInstruction target value = true) :
    isInstruction target (unifiedText value) = true := by
  simp only [isInstruction, Bool.and_eq_true, Bool.not_eq_true', isDocumentText,
    toList_unifiedText] at h ⊢
  exact ⟨⟨h.1.1, Text.all_isChar_unifyLineEnds h.1.2⟩,
    hasWord_unifyLineEnds (by decide) (by decide) h.2⟩

namespace Markup

theorem unifiedText_eq_self {value : String} (h : '\r' ∉ value.toList) :
    unifiedText value = value := by
  rw [unifiedText, Text.unifyLineEnds_eq_self, String.ofList_toList]
  rintro c hc rfl
  exact h hc

mutual

/-- Markup with the line ends in its comments and instructions unified. -/
def unified : Markup → Markup
  | .text value => .text value
  | .comment value => .comment (unifiedText value)
  | .instruction target value => .instruction target (unifiedText value)
  | .element name attributes children => .element name attributes (unifiedAll children)

/-- Nodes with the line ends in their comments and instructions unified. -/
def unifiedAll : List Markup → List Markup
  | [] => []
  | m :: rest => m.unified :: unifiedAll rest

end

@[simp] theorem isText_unified (m : Markup) : m.unified.isText = m.isText := by
  cases m <;> rfl

theorem unifiedAll_eq_map (ms : List Markup) : unifiedAll ms = ms.map unified := by
  induction ms with
  | nil => rfl
  | cons m ms ih => rw [unifiedAll, ih, List.map_cons]

@[simp] theorem startsWithText_unifiedAll (ms : List Markup) :
    startsWithText (unifiedAll ms) = startsWithText ms := by
  cases ms with
  | nil => rfl
  | cons m ms => exact isText_unified m

mutual

theorem sound_unified (m : Markup) (h : m.sound = true) : m.unified.sound = true := by
  cases m with
  | text value => exact h
  | comment value => exact isComment_unifiedText h
  | instruction target value => exact isInstruction_unifiedText h
  | element name attributes children =>
    rw [sound, Bool.and_eq_true] at h
    rw [unified, sound, h.1, soundAll_unifiedAll children h.2]
    rfl

theorem soundAll_unifiedAll (ms : List Markup) (h : soundAll ms = true) :
    soundAll (unifiedAll ms) = true := by
  cases ms with
  | nil => rfl
  | cons m ms =>
    rw [soundAll_cons] at h
    rw [unifiedAll, soundAll_cons, isText_unified, startsWithText_unifiedAll]
    exact ⟨sound_unified m h.1, h.2.1, soundAll_unifiedAll ms h.2.2⟩

end

/-! Written markup without carriage returns. -/

theorem not_mem_of_isRawName {name : List Char} (h : isRawName name = true) : '\r' ∉ name := by
  obtain ⟨c, cs, rfl, hc, -, hcs⟩ := isRawName_cons h
  rw [List.mem_cons, not_or]
  constructor
  · rintro rfl
    exact absurd hc (by decide)
  · intro hr
    exact absurd (List.all_eq_true.mp hcs _ hr) (by decide)

theorem not_mem_renderAttributes {attributes : List (String × String)}
    (h : attributes.all (fun a => isRawName a.1.toList && isDocumentText a.2) = true) :
    '\r' ∉ attributes.flatMap renderAttribute := by
  rw [List.mem_flatMap]
  rintro ⟨a, ha, hr⟩
  have hname := (Bool.and_eq_true _ _ ▸ List.all_eq_true.mp h a ha).1
  have hvalue := not_mem_flatMap (not_mem_escapeValueChar (x := '\r') (by simp)) a.2.toList
  rw [renderAttribute, List.mem_cons, List.mem_append, List.mem_cons, List.mem_cons,
    List.mem_append] at hr
  rcases hr with hr | hr | hr | hr | hr | hr
  · exact absurd hr (by decide)
  · exact not_mem_of_isRawName hname hr
  · exact absurd hr (by decide)
  · exact absurd hr (by decide)
  · exact hvalue hr
  · exact absurd hr (by decide)

theorem not_mem_tagEnd (closed : Bool) : '\r' ∉ tagEnd closed := by
  cases closed <;> decide

mutual

theorem unifyLineEnds_renderAt (m : Markup) (h : m.sound = true) (rest : List Char) :
    unifyLineEnds (m.renderAt none ++ rest) = m.unified.renderAt none ++ unifyLineEnds rest := by
  cases m with
  | text value =>
    rw [unified, renderAt]
    exact Text.unifyLineEnds_append_of_not_mem
      (not_mem_flatMap (not_mem_escapeTextChar (by simp)) value.toList) rest
  | comment value =>
    have hsplit : ∀ v : String, ∀ rest, (Markup.comment v).renderAt none ++ rest =
        "<!--".toList ++ (v.toList ++ '-' :: ('-' :: '>' :: rest)) := by
      intro v rest
      simp [renderAt, renderComment]
    rw [unified, hsplit, hsplit, Text.unifyLineEnds_append_of_not_mem (by decide),
      Text.unifyLineEnds_append_cons _ (by decide), toList_unifiedText,
      Text.unifyLineEnds_cons (by decide), Text.unifyLineEnds_cons (by decide),
      Text.unifyLineEnds_cons (by decide)]
  | instruction target value =>
    have htarget : isRawName target.toList = true := by
      simp only [sound, isInstruction, Bool.and_eq_true] at h
      exact isRawName_of_isLocalName h.1.1.1
    have hsplit : ∀ v : String, ∀ rest, (Markup.instruction target v).renderAt none ++ rest =
        "<?".toList ++ (target.toList ++ ' ' :: (v.toList ++ '?' :: '>' :: rest)) := by
      intro v rest
      simp [renderAt, renderInstruction]
    rw [unified, hsplit, hsplit, Text.unifyLineEnds_append_of_not_mem (by decide),
      Text.unifyLineEnds_append_of_not_mem (not_mem_of_isRawName htarget),
      Text.unifyLineEnds_cons (by decide), Text.unifyLineEnds_append_cons _ (by decide),
      toList_unifiedText, Text.unifyLineEnds_cons (by decide),
      Text.unifyLineEnds_cons (by decide)]
  | element name attributes children =>
    rw [sound, Bool.and_eq_true, Bool.and_eq_true] at h
    obtain ⟨⟨hname, hattributes⟩, hchildren⟩ := h
    have hn := not_mem_of_isRawName hname
    have ha := not_mem_renderAttributes hattributes
    rw [unified, renderAt_none_element, renderAt_none_element]
    have hempty : (unifiedAll children).isEmpty = children.isEmpty := by cases children <;> rfl
    rw [hempty]
    split
    · rw [Text.unifyLineEnds_cons (by decide), Text.unifyLineEnds_append_of_not_mem hn,
        Text.unifyLineEnds_append_of_not_mem ha,
        Text.unifyLineEnds_append_of_not_mem (not_mem_tagEnd true)]
    · rw [Text.unifyLineEnds_cons (by decide), Text.unifyLineEnds_append_of_not_mem hn,
        Text.unifyLineEnds_append_of_not_mem ha,
        Text.unifyLineEnds_append_of_not_mem (not_mem_tagEnd false),
        unifyLineEnds_renderInline children hchildren, Text.unifyLineEnds_cons (by decide),
        Text.unifyLineEnds_cons (by decide), Text.unifyLineEnds_append_of_not_mem hn,
        Text.unifyLineEnds_cons (by decide)]

theorem unifyLineEnds_renderInline (ms : List Markup) (h : soundAll ms = true) (rest : List Char) :
    unifyLineEnds (renderInline ms ++ rest) = renderInline (unifiedAll ms) ++ unifyLineEnds rest := by
  cases ms with
  | nil => rfl
  | cons m ms =>
    rw [soundAll_cons] at h
    rw [renderInline, List.append_assoc, unifyLineEnds_renderAt m h.1,
      unifyLineEnds_renderInline ms h.2.2, unifiedAll, renderInline, List.append_assoc]

end

end Markup

end Xml

end Manifest
