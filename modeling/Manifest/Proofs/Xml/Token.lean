import Manifest.Proofs.Xml.Scan
import Manifest.Xml.Qualify

/-! The tokens of what was written. Markup is sound if its names, texts, comments and instructions can
be written and no two texts stand side by side; then its tokens can be told from the markup itself. -/

set_option autoImplicit false

namespace Manifest.Xml

namespace Markup

/-- Whether nodes begin with a text. -/
def startsWithText : List Markup → Bool
  | m :: _ => m.isText
  | [] => false

mutual

/-- Whether markup can be written and has no two texts side by side. -/
def sound : Markup → Bool
  | .text value => isDocumentText value
  | .comment value => isComment value
  | .instruction target value => isInstruction target value
  | .element name attributes children =>
    isRawName name.toList &&
      attributes.all (fun a => isRawName a.1.toList && isDocumentText a.2) && soundAll children

/-- Whether all of some nodes side by side are sound. -/
def soundAll : List Markup → Bool
  | [] => true
  | m :: rest => m.sound && !(m.isText && startsWithText rest) && soundAll rest

end

/-- An attribute as it is read from a tag. -/
def rawAttribute (a : String × String) : List Char × List Char :=
  (a.1.toList, a.2.toList)

mutual

/-- The tokens of markup that is written without adding anything to its text. -/
def tokens : Markup → List Token
  | .text value => if value.isEmpty then [] else [.data (value.toList.map textPiece)]
  | .comment value => [.comment value.toList]
  | .instruction target value => [.instruction target.toList (skipSpace value.toList)]
  | .element name attributes children =>
    if children.isEmpty then [.startTag name.toList (attributes.map rawAttribute) true]
    else .startTag name.toList (attributes.map rawAttribute) false ::
      (tokensOf children ++ [.endTag name.toList])

/-- The tokens of nodes side by side. -/
def tokensOf : List Markup → List Token
  | [] => []
  | m :: rest => m.tokens ++ tokensOf rest

end

theorem soundAll_cons {m : Markup} {rest : List Markup} :
    soundAll (m :: rest) = true ↔
      m.sound = true ∧ (m.isText = true → startsWithText rest = false) ∧ soundAll rest = true := by
  rw [soundAll, Bool.and_eq_true, Bool.and_eq_true, and_assoc]
  cases m.isText <;> cases startsWithText rest <;> simp

end Markup

open Markup (renderAttribute renderComment renderInstruction renderInline escapeText escapeValue
  rawAttribute tokensOf soundAll soundAll_cons startsWithText)

/-! Attributes and tags. -/

section
variable (entity : EntityText)

theorem takeAttribute_append {a : String × String} (hname : isRawName a.1.toList = true)
    (hvalue : isDocumentText a.2 = true) (rest : List Char) :
    takeAttribute entity (a.1.toList ++ '=' :: '"' :: (escapeValue a.2 ++ '"' :: rest)) =
      some (rawAttribute a, rest) := by
  have hn : takeName (a.1.toList ++ '=' :: '"' :: (escapeValue a.2 ++ '"' :: rest)) =
      some (a.1.toList, '=' :: '"' :: (escapeValue a.2 ++ '"' :: rest)) :=
    takeName_append hname (by simp +decide)
  have he : skipEquals ('=' :: '"' :: (escapeValue a.2 ++ '"' :: rest)) =
      some ('"' :: (escapeValue a.2 ++ '"' :: rest)) := by
    rw [skipEquals, skipSpace_cons (by decide), skipWord]
    simp only [beq_self_eq_true, if_true, skipWord, Option.map_some]
    rw [skipSpace_cons (by decide)]
  have hq : takeQuoted ('"' :: (escapeValue a.2 ++ '"' :: rest)) =
      some (escapeValue a.2, rest) :=
    takeQuoted_append (not_mem_flatMap (not_mem_escapeValueChar (Or.inr (Or.inl rfl))) _)
  simp only [takeAttribute, hn, he, hq, attributeValue_escapeValue entity hvalue, rawAttribute,
    Option.bind_eq_bind, Option.bind_some, Option.pure_def]

/-- How a tag ends. -/
def tagEnd (closed : Bool) : List Char :=
  if closed then ['/', '>'] else ['>']

theorem takeAttributes_tagEnd (fuel : Nat) (closed : Bool) (rest : List Char) :
    takeAttributes entity fuel (tagEnd closed ++ rest) = some ([], closed, rest) := by
  cases closed with
  | false => rw [tagEnd, if_neg (by simp), List.singleton_append, takeAttributes]
  | true =>
    rw [tagEnd, if_pos rfl]
    simp only [List.cons_append, List.nil_append]
    rw [takeAttributes]

/-- The attributes of a tag without the space before the first. -/
def renderAttributes (attributes : List (String × String)) : List Char :=
  (attributes.flatMap renderAttribute).tail

theorem renderAttributes_cons (a : String × String) (more : List (String × String)) :
    renderAttributes (a :: more) =
      a.1.toList ++ '=' :: '"' :: (escapeValue a.2 ++ '"' :: more.flatMap renderAttribute) := by
  simp [renderAttributes, renderAttribute]

theorem flatMap_renderAttribute_cons (a : String × String) (more : List (String × String)) :
    (a :: more).flatMap renderAttribute = ' ' :: renderAttributes (a :: more) := by
  simp [renderAttributes, renderAttribute]

theorem isSpace_head_renderAttributes (attributes : List (String × String))
    (h : attributes.all (fun a => isRawName a.1.toList && isDocumentText a.2) = true)
    (closed : Bool) (rest : List Char) :
    ∀ c ∈ (renderAttributes attributes ++ (tagEnd closed ++ rest)).head?, isSpace c = false := by
  cases attributes with
  | nil => cases closed <;> simp +decide [renderAttributes, tagEnd]
  | cons a more =>
    rw [List.all_cons, Bool.and_eq_true, Bool.and_eq_true] at h
    obtain ⟨c, cs, hcs, hc, -⟩ := isRawName_cons h.1.1
    rw [renderAttributes_cons, hcs]
    simpa using isSpace_of_isRawNameChar hc

theorem takeAttributes_append {attributes : List (String × String)} {fuel : Nat} (closed : Bool)
    (rest : List Char)
    (h : attributes.all (fun a => isRawName a.1.toList && isDocumentText a.2) = true)
    (hfuel : attributes.length ≤ fuel) :
    takeAttributes entity fuel (renderAttributes attributes ++ (tagEnd closed ++ rest)) =
      some (attributes.map rawAttribute, closed, rest) := by
  induction attributes generalizing fuel with
  | nil => exact takeAttributes_tagEnd entity fuel closed rest
  | cons a more ih =>
    have hall := h
    rw [List.all_cons, Bool.and_eq_true, Bool.and_eq_true] at h
    cases fuel with
    | zero => simp at hfuel
    | succ fuel =>
      have hmore := ih h.2 (Nat.le_of_succ_le_succ hfuel)
      have hfirst := takeAttribute_append entity h.1.1 h.1.2
        (more.flatMap renderAttribute ++ (tagEnd closed ++ rest))
      obtain ⟨c, cs, hcs, hc, -⟩ := isRawName_cons h.1.1
      have hsplit : renderAttributes (a :: more) ++ (tagEnd closed ++ rest) =
          a.1.toList ++ '=' :: '"' :: (escapeValue a.2 ++ '"' ::
            (more.flatMap renderAttribute ++ (tagEnd closed ++ rest))) := by
        rw [renderAttributes_cons]
        simp
      rw [hsplit, takeAttributes]
      · rw [hfirst]
        cases more with
        | nil => cases closed <;> rfl
        | cons b more =>
          rw [flatMap_renderAttribute_cons, List.cons_append]
          have hskip : skipSpaces1 (' ' :: (renderAttributes (b :: more) ++ (tagEnd closed ++ rest)))
              = some (renderAttributes (b :: more) ++ (tagEnd closed ++ rest)) := by
            rw [skipSpaces1, if_pos (by decide),
              skipSpace_eq_self (isSpace_head_renderAttributes _ h.2 closed rest)]
          simp only [Option.bind_eq_bind, Option.bind_some, hskip, hmore, Option.pure_def,
            List.map_cons]
          rfl
      · -- a name does not begin like the end of a tag
        intro r hr
        rw [hcs, List.cons_append, List.cons.injEq] at hr
        rw [hr.1] at hc
        exact absurd hc (by decide)
      · intro r hr
        rw [hcs, List.cons_append, List.cons.injEq] at hr
        rw [hr.1] at hc
        exact absurd hc (by decide)

theorem takeStartTag_append {name : String} {attributes : List (String × String)} (closed : Bool)
    (rest : List Char) (hname : isRawName name.toList = true)
    (h : attributes.all (fun a => isRawName a.1.toList && isDocumentText a.2) = true) :
    takeStartTag entity (name.toList ++ (attributes.flatMap renderAttribute ++
        (tagEnd closed ++ rest))) =
      some (.startTag name.toList (attributes.map rawAttribute) closed, rest) := by
  have hskip : skipSpace (attributes.flatMap renderAttribute ++ (tagEnd closed ++ rest)) =
      renderAttributes attributes ++ (tagEnd closed ++ rest) := by
    cases attributes with
    | nil =>
      rw [List.flatMap_nil]
      exact skipSpace_eq_self (isSpace_head_renderAttributes [] rfl closed rest)
    | cons a more =>
      rw [flatMap_renderAttribute_cons, List.cons_append]
      have hs := skipSpace_eq_self (isSpace_head_renderAttributes _ h closed rest)
      simpa [skipSpace, show isSpace ' ' = true by decide] using hs
  have hn : takeName (name.toList ++ (attributes.flatMap renderAttribute ++
        (tagEnd closed ++ rest))) =
      some (name.toList, attributes.flatMap renderAttribute ++ (tagEnd closed ++ rest)) := by
    refine takeName_append hname ?_
    cases attributes with
    | nil => cases closed <;> simp +decide [tagEnd]
    | cons a more =>
      rw [flatMap_renderAttribute_cons]
      simp +decide
  have hfuel : attributes.length ≤
      (renderAttributes attributes ++ (tagEnd closed ++ rest)).length := by
    have hlen : ∀ xs : List (String × String), xs.length ≤ (xs.flatMap renderAttribute).length := by
      intro xs
      induction xs with
      | nil => simp
      | cons x xs ih =>
        rw [List.flatMap_cons, List.length_append, renderAttribute]
        simp only [List.length_cons]
        omega
    have hone : 1 ≤ (tagEnd closed).length := by cases closed <;> simp [tagEnd]
    have := hlen attributes
    simp only [List.length_append, renderAttributes, List.length_tail]
    omega
  have ha := takeAttributes_append entity closed rest h hfuel
  simp only [takeStartTag, hn, hskip, ha, Option.bind_eq_bind, Option.bind_some, Option.pure_def]

theorem takeEndTag_append {name : String} (hname : isRawName name.toList = true)
    (rest : List Char) :
    takeEndTag (name.toList ++ '>' :: rest) = some (.endTag name.toList, rest) := by
  have hn : takeName (name.toList ++ '>' :: rest) = some (name.toList, '>' :: rest) :=
    takeName_append hname (by simp +decide)
  simp only [takeEndTag, hn, Option.bind_eq_bind, Option.bind_some]
  rw [skipSpace_cons (by decide)]
  simp [skipWord]

end

/-! Comments, instructions and text. -/

theorem takeComment_append {value : String} (h : isComment value = true) (rest : List Char) :
    takeComment (value.toList ++ '-' :: '-' :: '>' :: rest) = some (value.toList, rest) := by
  simp only [isComment, Bool.and_eq_true, Bool.not_eq_true', bne_iff_ne] at h
  have hs := splitAtWord_pair '-' '-' ('>' :: rest) h.1.2 (Or.inr h.2)
  have hall : value.toList.all isChar = true := h.1.1
  simp only [takeComment, hs, skipWord, beq_self_eq_true, if_true, hall, Option.bind_eq_bind,
    Option.bind_some, Option.pure_def]

theorem takeInstruction_append {target value : String} (h : isInstruction target value = true)
    (rest : List Char) :
    takeInstruction (target.toList ++ ' ' :: (value.toList ++ '?' :: '>' :: rest)) =
      some ((target.toList, skipSpace value.toList), rest) := by
  simp only [isInstruction, Bool.and_eq_true, Bool.not_eq_true'] at h
  obtain ⟨⟨⟨htarget, hreserved⟩, hvalue⟩, hword⟩ := h
  have hn : takeName (target.toList ++ ' ' :: (value.toList ++ '?' :: '>' :: rest)) =
      some (target.toList, ' ' :: (value.toList ++ '?' :: '>' :: rest)) :=
    takeName_append (isRawName_of_isLocalName htarget) (by simp +decide)
  -- what is left of the value after the white space in front still does not end the instruction
  have hskip : ∀ cs : List Char, hasWord ['?', '>'] cs = false →
      hasWord ['?', '>'] (skipSpace cs) = false ∧
        skipSpace (cs ++ '?' :: '>' :: rest) = skipSpace cs ++ '?' :: '>' :: rest := by
    intro cs
    induction cs with
    | nil => intro _; exact ⟨rfl, skipSpace_cons (by decide) _⟩
    | cons c cs ih =>
      intro hc
      cases hs : isSpace c with
      | false => exact ⟨by rw [skipSpace_cons hs]; exact hc, by
          rw [skipSpace_cons hs, List.cons_append, skipSpace_cons hs]⟩
      | true =>
        have hcs : hasWord ['?', '>'] cs = false := by
          rw [hasWord, splitAtWord] at hc
          cases hw : skipWord ['?', '>'] (c :: cs) with
          | some r => simp [hw] at hc
          | none => simpa [hw, hasWord] using hc
        simpa [skipSpace, hs] using ih hcs
  obtain ⟨hw, hs⟩ := hskip value.toList hword
  have hsplit := splitAtWord_pair '?' '>' rest hw (Or.inl (by decide))
  have hall : (skipSpace value.toList).all isChar = true := by
    rw [List.all_eq_true]
    intro x hx
    exact List.all_eq_true.mp hvalue x (List.dropWhile_sublist _ |>.subset hx)
  have hone : skipSpaces1 (' ' :: (value.toList ++ '?' :: '>' :: rest)) =
      some (skipSpace value.toList ++ '?' :: '>' :: rest) := by
    rw [skipSpaces1, if_pos (by decide), hs]
  simp only [takeInstruction, hn, hreserved, hone, hsplit, hall, Option.bind_eq_bind,
    Option.bind_some, Bool.false_eq_true, if_false, if_true, Option.pure_def]
  simp [skipWord]

theorem splitAtWord_of_not_mem {a : Char} {word cs : List Char} (hword : word.getLast? = some a)
    (h : a ∉ cs) : splitAtWord word cs = none := by
  have hskip : ∀ (word cs : List Char), word.getLast? = some a → a ∉ cs →
      skipWord word cs = none := by
    intro word
    induction word with
    | nil => intro cs hw; cases hw
    | cons w ws ih =>
      intro cs hw hcs
      cases cs with
      | nil => rfl
      | cons c cs =>
        rw [skipWord]
        split
        · next hwc =>
          cases ws with
          | nil =>
            simp only [List.getLast?_singleton, Option.some.injEq] at hw
            rw [beq_iff_eq] at hwc
            exact absurd (by rw [← hw, hwc]; simp) hcs
          | cons x xs =>
            exact ih cs (by simpa [List.getLast?_cons_cons] using hw) (fun hx => hcs (by simp [hx]))
        · rfl
  induction cs with
  | nil => rfl
  | cons c cs ih =>
    rw [splitAtWord, hskip word (c :: cs) hword h, ih fun hx => h (by simp [hx])]
    rfl

/-- Text may stand in front of what follows: the end, or markup. -/
def MarkupAhead (rest : List Char) : Prop :=
  ∀ c ∈ rest.head?, c = '<'

theorem takeData_raw {raw rest : List Char} {ps : List Piece} (hno : '<' ∉ raw)
    (hrest : MarkupAhead rest) (hword : hasWord [']', ']', '>'] raw = false)
    (hpieces : pieces raw = some ps) : takeData (raw ++ rest) = some (.data ps, rest) := by
  have hall : ∀ c ∈ raw, (c != '<') = true := by
    intro c hc
    rw [bne_iff_ne]
    rintro rfl
    exact hno hc
  have htake : (raw ++ rest).takeWhile (· != '<') = raw := by
    rw [List.takeWhile_append_of_pos hall]
    cases rest with
    | nil => simp
    | cons c rest => simp [hrest c rfl]
  have hdrop : (raw ++ rest).dropWhile (· != '<') = rest := by
    rw [List.dropWhile_append_of_pos hall]
    cases rest with
    | nil => rfl
    | cons c rest => simp [hrest c rfl]
  simp [takeData, htake, hdrop, hword, hpieces]

theorem takeData_append {value : String} (h : isDocumentText value = true) {rest : List Char}
    (hrest : MarkupAhead rest) :
    takeData (escapeText value ++ rest) = some (.data (value.toList.map textPiece), rest) := by
  have hno : ∀ x, (x = '<' ∨ x = '>' ∨ x = '\r') → x ∉ escapeText value := fun x hx =>
    not_mem_flatMap (not_mem_escapeTextChar hx) value.toList
  have hword : hasWord [']', ']', '>'] (escapeText value) = false := by
    rw [hasWord, splitAtWord_of_not_mem (a := '>') rfl (hno '>' (Or.inr (Or.inl rfl)))]
    rfl
  exact takeData_raw (hno '<' (Or.inl rfl)) hrest hword (pieces_escapeText h)

/-! Tokens from front to back. -/

/-- A text has the given tokens, whatever fuel is left to find them. -/
def Lexes (entity : EntityText) (cs : List Char) (ts : List Token) : Prop :=
  ∀ fuel, cs.length ≤ fuel → tokensWithin entity fuel cs = some ts

section
variable {entity : EntityText}

theorem lexes_nil : Lexes entity [] [] := by
  intro fuel _
  cases fuel <;> rfl

theorem Lexes.tokens {cs : List Char} {ts : List Token} (h : Lexes entity cs ts) :
    tokens entity cs = some ts :=
  h cs.length (Nat.le_refl _)

/-- A token in front of a text whose tokens are known. -/
theorem Lexes.cons {cs rest : List Char} {t : Token} {ts : List Token}
    (htake : takeToken entity cs = some (t, rest)) (hlt : rest.length < cs.length)
    (h : Lexes entity rest ts) : Lexes entity cs (t :: ts) := by
  intro fuel hfuel
  cases cs with
  | nil => cases hlt
  | cons c cs =>
    cases fuel with
    | zero => cases hfuel
    | succ fuel =>
      have hrest := h fuel (by omega)
      simp only [tokensWithin, htake, hrest, Option.bind_eq_bind, Option.bind_some,
        Option.pure_def]

theorem lexes_comment {value : String} {rest : List Char} {ts : List Token}
    (hvalue : isComment value = true) (h : Lexes entity rest ts) :
    Lexes entity (renderComment value ++ rest) (.comment value.toList :: ts) := by
  have hsplit : renderComment value ++ rest =
      '<' :: '!' :: '-' :: '-' :: (value.toList ++ '-' :: '-' :: '>' :: rest) := by
    simp [renderComment]
  rw [hsplit]
  refine h.cons (by rw [takeToken, takeComment_append hvalue]; rfl) ?_
  simp only [List.length_cons, List.length_append]
  omega

theorem lexes_instruction {target value : String} {rest : List Char} {ts : List Token}
    (hvalue : isInstruction target value = true) (h : Lexes entity rest ts) :
    Lexes entity (renderInstruction target value ++ rest)
      (.instruction target.toList (skipSpace value.toList) :: ts) := by
  have hsplit : renderInstruction target value ++ rest =
      '<' :: '?' :: (target.toList ++ ' ' :: (value.toList ++ '?' :: '>' :: rest)) := by
    simp [renderInstruction]
  rw [hsplit]
  refine h.cons (by rw [takeToken, takeInstruction_append hvalue]; rfl) ?_
  simp only [List.length_cons, List.length_append]
  omega

theorem lexes_text {value : String} {rest : List Char} {ts : List Token}
    (hvalue : isDocumentText value = true) (hne : value.isEmpty = false)
    (hrest : MarkupAhead rest) (h : Lexes entity rest ts) :
    Lexes entity (escapeText value ++ rest) (.data (value.toList.map textPiece) :: ts) := by
  have hno : '<' ∉ escapeText value :=
    not_mem_flatMap (not_mem_escapeTextChar (Or.inl rfl)) value.toList
  have htake := takeData_append hvalue hrest
  cases hv : escapeText value with
  | nil =>
    -- every character leaves something when it is escaped
    exfalso
    cases hcs : value.toList with
    | nil => simp_all [← String.toList_eq_nil_iff]
    | cons c cs =>
      rw [escapeText, hcs, List.flatMap_cons, List.append_eq_nil_iff] at hv
      have := hv.1
      rw [Markup.escapeTextChar] at this
      revert this
      repeat' split
      all_goals simp
  | cons c cs =>
    rw [hv] at htake hno
    refine h.cons ?_ (by simp only [List.cons_append, List.length_cons, List.length_append]; omega)
    rw [← htake, List.cons_append, takeToken]
    all_goals
      intro tail hc
      rw [List.cons.injEq] at hc
      exact hno (by rw [hc.1]; simp)

theorem lexes_startTag {name : String} {attributes : List (String × String)} (closed : Bool)
    {rest : List Char} {ts : List Token} (hname : isRawName name.toList = true)
    (hattributes : attributes.all (fun a => isRawName a.1.toList && isDocumentText a.2) = true)
    (h : Lexes entity rest ts) :
    Lexes entity ('<' :: (name.toList ++ (attributes.flatMap renderAttribute ++
        (tagEnd closed ++ rest))))
      (.startTag name.toList (attributes.map rawAttribute) closed :: ts) := by
  have htake := takeStartTag_append entity closed rest hname hattributes
  obtain ⟨c, cs, hcs, hc, -⟩ := isRawName_cons hname
  refine h.cons ?_ (by simp only [List.length_cons, List.length_append]; omega)
  rw [← htake, hcs, List.cons_append, takeToken]
  all_goals
    intro tail hd
    simp only [List.cons.injEq] at hd
    rw [hd.1] at hc
    exact absurd hc (by decide)

theorem lexes_endTag {name : String} {rest : List Char} {ts : List Token}
    (hname : isRawName name.toList = true) (h : Lexes entity rest ts) :
    Lexes entity ('<' :: '/' :: (name.toList ++ '>' :: rest)) (.endTag name.toList :: ts) := by
  refine h.cons (by rw [takeToken, takeEndTag_append hname]) ?_
  simp only [List.length_cons, List.length_append]
  omega

end

namespace Markup

theorem renderAt_none_element (name : String) (attributes : List (String × String))
    (children : List Markup) (rest : List Char) :
    (Markup.element name attributes children).renderAt none ++ rest =
      if children.isEmpty then
        '<' :: (name.toList ++ (attributes.flatMap renderAttribute ++ (tagEnd true ++ rest)))
      else '<' :: (name.toList ++ (attributes.flatMap renderAttribute ++ (tagEnd false ++
        (renderInline children ++ '<' :: '/' :: (name.toList ++ '>' :: rest))))) := by
  rw [renderAt]
  cases children with
  | nil => simp [tagEnd]
  | cons m ms =>
    simp only [List.isEmpty_cons, Bool.false_eq_true, if_false, ite_self]
    simp [tagEnd]

theorem markupAhead_renderAt {m : Markup} (h : m.isText = false) (rest : List Char) :
    MarkupAhead (m.renderAt none ++ rest) := by
  intro c hc
  cases m with
  | text value => cases h
  | comment value => simpa [renderAt, renderComment, eq_comm] using hc
  | instruction target value => simpa [renderAt, renderInstruction, eq_comm] using hc
  | element name attributes children =>
    rw [renderAt_none_element] at hc
    split at hc <;> simpa [eq_comm] using hc

mutual

/-- Markup that is written can be cut into its tokens again. -/
theorem lexes_renderAt {entity : EntityText} (m : Markup) (hm : m.sound = true) {rest : List Char}
    {ts : List Token} (hrest : m.isText = true → MarkupAhead rest) (h : Lexes entity rest ts) :
    Lexes entity (m.renderAt none ++ rest) (m.tokens ++ ts) := by
  cases m with
  | text value =>
    rw [renderAt, tokens]
    split
    · next he =>
      have hnil : escapeText value = [] := by
        rw [String.isEmpty_iff] at he
        rw [he]
        rfl
      rw [hnil]
      exact h
    · next he => exact lexes_text hm (by simpa using he) (hrest rfl) h
  | comment value =>
    rw [renderAt, tokens]
    exact lexes_comment hm h
  | instruction target value =>
    rw [renderAt, tokens]
    exact lexes_instruction hm h
  | element name attributes children =>
    rw [sound, Bool.and_eq_true, Bool.and_eq_true] at hm
    obtain ⟨⟨hname, hattributes⟩, hchildren⟩ := hm
    rw [renderAt_none_element, tokens]
    split
    · exact lexes_startTag true hname hattributes h
    · have hend := lexes_endTag hname h
      have hinner := lexes_renderInline children hchildren (by intro c hc; cases hc; rfl) hend
      have hstart := lexes_startTag false hname hattributes hinner
      rw [List.cons_append, List.append_assoc]
      exact hstart

theorem lexes_renderInline {entity : EntityText} (ms : List Markup) (hms : soundAll ms = true)
    {rest : List Char} {ts : List Token} (hrest : MarkupAhead rest) (h : Lexes entity rest ts) :
    Lexes entity (renderInline ms ++ rest) (tokensOf ms ++ ts) := by
  cases ms with
  | nil =>
    rw [renderInline, tokensOf]
    exact h
  | cons m ms =>
    obtain ⟨hm, hnext, hms⟩ := soundAll_cons.mp hms
    have hmore := lexes_renderInline ms hms hrest h
    rw [renderInline, tokensOf, List.append_assoc, List.append_assoc]
    refine lexes_renderAt m hm (fun htext => ?_) hmore
    have hstart := hnext htext
    cases ms with
    | nil =>
      rw [renderInline]
      exact hrest
    | cons m' ms =>
      rw [renderInline, List.append_assoc]
      exact markupAhead_renderAt hstart _

end

end Markup

end Manifest.Xml
