import Manifest.Proofs.Xml.Prolog

/-! Reading back a whole written document: its declaration, its document type, the comments and
instructions beside the root, and the root. -/

set_option autoImplicit false

namespace Manifest.Xml

open Markup (tokensOf soundAll soundAll_cons acceptedAll depthAll renderInline resolveAll unifiedAll
  startsWithText)

/-- Whether markup is a comment or an instruction. -/
def Markup.isRemark : Markup → Bool
  | .comment _ | .instruction .. => true
  | _ => false

/-- Markup that stands on a line of its own beside the root. -/
def lineOf (m : Markup) : List Char :=
  m.renderAt none ++ ['\n']

/-- Whether a text begins with a tag. -/
def startsTag : List Char → Bool
  | '<' :: c :: _ => isNameStart c || c == ':'
  | _ => false

theorem startsTag_eq_true {cs : List Char} (h : startsTag cs = true) :
    ∃ c rest, cs = '<' :: c :: rest ∧ isRawNameChar c = true := by
  rw [startsTag.eq_def] at h
  split at h
  · next c rest =>
    refine ⟨c, rest, rfl, ?_⟩
    rcases Bool.or_eq_true _ _ ▸ h with hc | hc
    · exact isRawNameChar_of_isNameStart hc
    · simp [isRawNameChar, hc]
  · cases h

theorem skipSpace_skipSpace (cs : List Char) : skipSpace (skipSpace cs) = skipSpace cs := by
  apply skipSpace_eq_self
  intro c hc
  have h := List.head?_dropWhile_not isSpace cs
  rw [skipSpace] at hc
  rw [hc] at h
  simpa using h

theorem takeMisc_skipSpace (fuel : Nat) (doctype : Option Doctype) (cs : List Char) :
    takeMisc fuel doctype (skipSpace cs) = takeMisc fuel doctype cs := by
  cases fuel with
  | zero => rfl
  | succ fuel => rw [takeMisc, takeMisc, skipSpace_skipSpace]

theorem takeMisc_newline (fuel : Nat) (doctype : Option Doctype) (cs : List Char) :
    takeMisc fuel doctype ('\n' :: cs) = takeMisc fuel doctype cs := by
  have hskip : skipSpace ('\n' :: cs) = skipSpace cs := by
    rw [skipSpace, List.dropWhile_cons_of_pos (by decide), skipSpace]
  rw [← takeMisc_skipSpace, hskip, takeMisc_skipSpace]

theorem takeMisc_root (fuel : Nat) (doctype : Option Doctype) {cs : List Char}
    (h : startsTag cs = true) : takeMisc (fuel + 1) doctype cs = some ([], doctype, cs) := by
  obtain ⟨c, rest, rfl, hc⟩ := startsTag_eq_true h
  have hword : skipWord "<!DOCTYPE".toList ('<' :: c :: rest) = none := by
    have hne : ('!' == c) = false := by
      rw [beq_eq_false_iff_ne]
      rintro rfl
      exact absurd hc (by decide)
    simp [skipWord, hne]
  rw [takeMisc, skipSpace_cons (by decide)]
  split
  · next hcs =>
    simp only [List.cons.injEq] at hcs
    rw [hcs.2.1] at hc
    exact absurd hc (by decide)
  · next hcs =>
    simp only [List.cons.injEq] at hcs
    rw [hcs.2.1] at hc
    exact absurd hc (by decide)
  · rw [hword]

/-- Comments and instructions in front of a root are read, each on its line. -/
theorem takeMisc_remarks {ms : List Markup} (hms : ∀ m ∈ ms, m.isRemark = true ∧ m.sound = true)
    {fuel : Nat} (hfuel : ms.length < fuel) (doctype : Option Doctype) {rest : List Char}
    (hrest : startsTag rest = true) :
    takeMisc fuel doctype (ms.flatMap lineOf ++ rest) = some (tokensOf ms, doctype, rest) := by
  induction ms generalizing fuel with
  | nil =>
    obtain ⟨fuel, rfl⟩ := Nat.exists_eq_add_one_of_ne_zero (Nat.ne_of_gt hfuel)
    exact takeMisc_root fuel doctype hrest
  | cons m ms ih =>
    obtain ⟨fuel, rfl⟩ := Nat.exists_eq_add_one_of_ne_zero (Nat.ne_of_gt (Nat.zero_lt_of_lt hfuel))
    have hmore := ih (fun x hx => hms x (by simp [hx])) (by simpa using hfuel)
    rw [← takeMisc_newline] at hmore
    obtain ⟨hremark, hsound⟩ := hms m (by simp)
    cases m with
    | comment value =>
      have hsplit : (Markup.comment value :: ms).flatMap lineOf ++ rest =
          '<' :: '!' :: '-' :: '-' :: (value.toList ++ '-' :: '-' :: '>' :: '\n' ::
            (ms.flatMap lineOf ++ rest)) := by
        simp [lineOf, Markup.renderAt, Markup.renderComment]
      rw [hsplit, takeMisc, skipSpace_cons (by decide)]
      simp only [takeComment_append hsound, hmore, Option.bind_eq_bind, Option.bind_some,
        Option.pure_def]
      rfl
    | instruction target value =>
      have hsplit : (Markup.instruction target value :: ms).flatMap lineOf ++ rest =
          '<' :: '?' :: (target.toList ++ ' ' :: (value.toList ++ '?' :: '>' :: '\n' ::
            (ms.flatMap lineOf ++ rest))) := by
        simp [lineOf, Markup.renderAt, Markup.renderInstruction]
      rw [hsplit, takeMisc, skipSpace_cons (by decide)]
      simp only [takeInstruction_append hsound, hmore, Option.bind_eq_bind, Option.bind_some,
        Option.pure_def]
      rfl
    | _ => cases hremark

/-! Everything in front of the root. -/

/-- The declaration of a document, if it is written. -/
def declarationChars (encoding : Option String) : List Char :=
  (encoding.map renderDeclaration).getD []

/-- The document type of a document with a root of some name, on its line, if there is one. -/
def doctypeChars (doctype : Option (Doctype × String)) : List Char :=
  (doctype.map fun x => (x.1.render x.2).toList ++ ['\n']).getD []

/-- Whether a document type can be written, for a root of some name. -/
def doctypeQuotable (doctype : Option (Doctype × String)) : Prop :=
  ∀ x ∈ doctype, x.1.id.Quotable ∧ isRawName x.2.toList = true

/-- Whether a document type, if there is one, can be read again after it was written. -/
def doctypeComplete (doctype : Option (Doctype × String)) : Bool :=
  doctype.all fun x => x.1.id.isComplete

/-- A document type as it is read after it was written. -/
def doctypeTrimmed (doctype : Option (Doctype × String)) : Option Doctype :=
  doctype.map fun x => { id := x.1.id.trimmed }

theorem takeMisc_keyword (fuel : Nat) (cs : List Char) :
    takeMisc (fuel + 1) none ("<!DOCTYPE".toList ++ cs) =
      (takeDoctype cs).bind fun x => takeMisc fuel (some x.1) x.2 := by
  have hskip : skipSpace ("<!DOCTYPE".toList ++ cs) =
      '<' :: '!' :: 'D' :: ("OCTYPE".toList ++ cs) := by
    rw [skipSpace_eq_self (by simp +decide)]
    rfl
  have hword : skipWord "<!DOCTYPE".toList ('<' :: '!' :: 'D' :: ("OCTYPE".toList ++ cs)) =
      some cs := skipWord_append "<!DOCTYPE".toList cs
  rw [takeMisc, hskip]
  split
  · next hcs =>
    simp only [List.cons.injEq] at hcs
    exact absurd hcs.2.2.1 (by decide)
  · next hcs =>
    simp only [List.cons.injEq] at hcs
    exact absurd hcs.2.1 (by decide)
  · rw [hword]
    rfl

theorem takeMisc_doctype {doctype : Option (Doctype × String)} (hdoctype : doctypeQuotable doctype)
    {ms : List Markup} (hms : ∀ m ∈ ms, m.isRemark = true ∧ m.sound = true) {fuel : Nat}
    (hfuel : ms.length + 1 < fuel) {rest : List Char} (hrest : startsTag rest = true) :
    takeMisc fuel none (doctypeChars doctype ++ (ms.flatMap lineOf ++ rest)) =
      if doctypeComplete doctype then some (tokensOf ms, doctypeTrimmed doctype, rest) else none := by
  cases doctype with
  | none =>
    rw [doctypeChars, Option.map_none, Option.getD_none, List.nil_append,
      takeMisc_remarks hms (by omega) none hrest]
    rfl
  | some x =>
    obtain ⟨d, name⟩ := x
    obtain ⟨hid, hname⟩ := hdoctype _ rfl
    obtain ⟨fuel, rfl⟩ := Nat.exists_eq_add_one_of_ne_zero (Nat.ne_of_gt (Nat.zero_lt_of_lt hfuel))
    have hsplit : doctypeChars (some (d, name)) ++ (ms.flatMap lineOf ++ rest) =
        "<!DOCTYPE".toList ++ (' ' :: (name.toList ++ (d.id.written ++ '>' :: '\n' ::
          (ms.flatMap lineOf ++ rest)))) := by
      rw [doctypeChars, Option.map_some, Option.getD_some, toList_render]
      simp only [List.append_assoc, List.cons_append, List.nil_append]
    rw [hsplit, takeMisc_keyword, takeDoctype_written hid hname, doctypeComplete, Option.all_some]
    dsimp only
    cases d.id.isComplete with
    | false => rfl
    | true =>
      rw [if_pos rfl, if_pos rfl, Option.bind_some, takeMisc_newline,
        takeMisc_remarks hms (by omega) _ hrest]
      rfl

/-- What stands in front of a root does not look like a declaration. -/
theorem takeDeclared_none {doctype : Option (Doctype × String)} {ms : List Markup}
    (hms : ∀ m ∈ ms, m.isRemark = true ∧ m.sound = true) {rest : List Char}
    (hrest : startsTag rest = true) :
    takeDeclared (doctypeChars doctype ++ (ms.flatMap lineOf ++ rest)) =
      some (none, doctypeChars doctype ++ (ms.flatMap lineOf ++ rest)) := by
  apply takeDeclared_eq_none
  intro c cs hcs
  cases doctype with
  | some x =>
    rw [doctypeChars, Option.map_some, Option.getD_some, toList_render] at hcs
    simp at hcs
  | none =>
    rw [doctypeChars, Option.map_none, Option.getD_none, List.nil_append] at hcs
    cases ms with
    | nil =>
      obtain ⟨d, more, rfl, hd⟩ := startsTag_eq_true hrest
      simp only [List.flatMap_nil, List.nil_append, String.reduceToList, List.cons_append,
        List.cons.injEq] at hcs
      rw [hcs.2.1] at hd
      exact absurd hd (by decide)
    | cons m ms =>
      obtain ⟨hremark, hsound⟩ := hms m (by simp)
      cases m with
      | comment value => simp [lineOf, Markup.renderAt, Markup.renderComment] at hcs
      | instruction target value =>
        simp only [Markup.sound, isInstruction, Bool.and_eq_true, Bool.not_eq_true'] at hsound
        obtain ⟨⟨⟨htarget, hreserved⟩, -⟩, -⟩ := hsound
        have hall := List.all_eq_true.mp (all_isNameChar_of_isLocalName htarget)
        simp only [lineOf, Markup.renderAt, Markup.renderInstruction, List.flatMap_cons,
          String.reduceToList, List.cons_append, List.nil_append, List.append_assoc,
          List.cons.injEq, true_and] at hcs
        -- the target is longer than the word, or is the word itself, which is kept back
        generalize target.toList = name at hcs hreserved hall
        match name with
        | [] => simp at hcs
        | [a] => simp at hcs
        | [a, b] => simp at hcs
        | [a, b, d] =>
          simp only [List.cons_append, List.nil_append, List.cons.injEq] at hcs
          obtain ⟨rfl, rfl, rfl, -⟩ := hcs
          exact absurd hreserved (by decide)
        | a :: b :: d :: e :: more =>
          simp only [List.cons_append, List.cons.injEq] at hcs
          rw [← hcs.2.2.2.1]
          cases hs : isSpace e with
          | false => rfl
          | true =>
            have he := hall e (by simp)
            rw [isNameChar_of_isSpace hs] at he
            cases he
      | _ => cases hremark

/-! The root and what follows it. -/

/-- Nodes with a line end behind each. -/
def lined (ms : List Markup) : List Markup :=
  ms.flatMap fun m => [m, .text "\n"]

theorem renderInline_lined (ms : List Markup) : renderInline (lined ms) = ms.flatMap lineOf := by
  induction ms with
  | nil => rfl
  | cons m ms ih =>
    rw [lined, List.flatMap_cons] at *
    rw [List.cons_append, List.cons_append, List.nil_append, renderInline, renderInline, ih,
      List.flatMap_cons, lineOf, List.append_assoc]
    rfl

theorem isText_of_isRemark {m : Markup} (h : m.isRemark = true) : m.isText = false := by
  cases m <;> simp_all [Markup.isRemark, Markup.isText]

theorem startsWithText_lined {ms : List Markup} (hms : ∀ m ∈ ms, m.isRemark = true) :
    startsWithText (lined ms) = false := by
  cases ms with
  | nil => rfl
  | cons m ms => exact isText_of_isRemark (hms m (by simp))

theorem soundAll_lined {ms : List Markup} (hms : ∀ m ∈ ms, m.isRemark = true ∧ m.sound = true) :
    soundAll (lined ms) = true := by
  induction ms with
  | nil => rfl
  | cons m ms ih =>
    have hstart := startsWithText_lined fun x hx => (hms x (.tail m hx)).1
    obtain ⟨hremark, hsound⟩ := hms m (by simp)
    have hrest := ih fun x hx => hms x (by simp [hx])
    rw [lined, List.flatMap_cons]
    simp only [List.cons_append, List.nil_append]
    rw [soundAll_cons, soundAll_cons]
    refine ⟨hsound, fun htext => ?_, by decide, fun _ => hstart, hrest⟩
    rw [isText_of_isRemark hremark] at htext
    cases htext

theorem isElement_resolve_of_isRemark {m : Markup} (h : m.isRemark = true) (scope : Scope) :
    (m.resolve scope).isElement = false := by
  cases m with
  | comment value => rw [Markup.resolve]; rfl
  | instruction target value => rw [Markup.resolve]; rfl
  | _ => cases h

theorem isElement_of_isRemark {m : Markup} (h : m.isRemark = true) : m.isElement = false := by
  cases m <;> simp_all [Markup.isRemark, Markup.isElement]

theorem depth_of_isRemark {m : Markup} (h : m.isRemark = true) : m.depth = 0 := by
  cases m <;> simp_all [Markup.isRemark, Markup.depth]

/-- A comment or instruction outside the root is read. -/
theorem run_remark {m : Markup} (hremark : m.isRemark = true) (hsound : m.sound = true)
    {done : List Node} {last : Option Remark} (hlast : last ≠ some .fault) (ts : List Token) :
    ∃ last', last' ≠ some .fault ∧ Progress.run [] ⟨[], done, last⟩ (m.tokens ++ ts) =
      Progress.run [] ⟨[], m.resolve [] :: done, last'⟩ ts := by
  obtain ⟨last', hlast', hrun⟩ := run_tokens m hsound (p := ⟨[], done, last⟩)
    (by cases m <;> trivial)
    (fun htext => absurd htext (by simp [isText_of_isRemark hremark]))
    (fun helement => absurd helement (by simp [isElement_of_isRemark hremark]))
    (Nat.zero_le _) hlast ts
  refine ⟨last', hlast', ?_⟩
  rw [hrun, depth_of_isRemark hremark]
  exact if_pos (Nat.zero_le _)

/-- Comments and instructions outside the root are read in order. -/
theorem run_remarks {ms : List Markup} (hms : ∀ m ∈ ms, m.isRemark = true ∧ m.sound = true)
    {done : List Node} {last : Option Remark} (hlast : last ≠ some .fault) (ts : List Token) :
    ∃ last', last' ≠ some .fault ∧ Progress.run [] ⟨[], done, last⟩ (tokensOf ms ++ ts) =
      Progress.run [] ⟨[], (ms.map (·.resolve [])).reverse ++ done, last'⟩ ts := by
  induction ms generalizing done last with
  | nil => exact ⟨last, hlast, rfl⟩
  | cons m ms ih =>
    obtain ⟨hremark, hsound⟩ := hms m (by simp)
    rw [tokensOf, List.append_assoc]
    obtain ⟨last₁, hlast₁, hfirst⟩ :=
      @run_remark m hremark hsound done last hlast (tokensOf ms ++ ts)
    obtain ⟨last₂, hlast₂, hrest⟩ := @ih (fun x hx => hms x (by simp [hx]))
      (m.resolve [] :: done) last₁ hlast₁
    refine ⟨last₂, hlast₂, ?_⟩
    rw [hfirst, hrest]
    simp

theorem run_lined {ms : List Markup} (hms : ∀ m ∈ ms, m.isRemark = true ∧ m.sound = true)
    {done : List Node} {last : Option Remark} (hlast : last ≠ some .fault) (ts : List Token) :
    ∃ last', last' ≠ some .fault ∧
      Progress.run [] ⟨[], done, last⟩ (tokensOf (.text "\n" :: lined ms) ++ ts) =
        Progress.run [] ⟨[], (ms.map (·.resolve [])).reverse ++ done, last'⟩ ts := by
  -- a line end outside the root leaves no trace
  have hline : ∀ {done : List Node} {last : Option Remark} {ts : List Token},
      Progress.run [] ⟨[], done, last⟩ ((Markup.text "\n").tokens ++ ts) =
        Progress.run [] ⟨[], done, last⟩ ts := by
    intro done last ts
    have htokens : (Markup.text "\n").tokens = [.data [.literal '\n']] := by decide
    rw [htokens, List.singleton_append, Progress.run, Progress.step]
    simp +decide
  rw [tokensOf, List.append_assoc, hline]
  induction ms generalizing done last with
  | nil => exact ⟨last, hlast, rfl⟩
  | cons m ms ih =>
    obtain ⟨hremark, hsound⟩ := hms m (by simp)
    have hcons : lined (m :: ms) = m :: .text "\n" :: lined ms := rfl
    rw [hcons, tokensOf, tokensOf, List.append_assoc, List.append_assoc]
    obtain ⟨last₁, hlast₁, hfirst⟩ := @run_remark m hremark hsound done last hlast
      ((Markup.text "\n").tokens ++ (tokensOf (lined ms) ++ ts))
    obtain ⟨last₂, hlast₂, hrest⟩ := @ih (fun x hx => hms x (by simp [hx]))
      (m.resolve [] :: done) last₁ hlast₁
    refine ⟨last₂, hlast₂, ?_⟩
    rw [hfirst, hline, hrest]
    simp

theorem startsTag_renderAt {root : Markup} (hroot : root.isElement = true)
    (hsound : root.sound = true) (rest : List Char) :
    startsTag (root.renderAt none ++ rest) = true := by
  cases root with
  | element name attributes children =>
    rw [Markup.sound, Bool.and_eq_true, Bool.and_eq_true] at hsound
    obtain ⟨c, cs, hcs, -, hc, -⟩ := isRawName_cons hsound.1.1
    rw [Markup.renderAt_none_element, hcs]
    split <;> exact hc
  | _ => cases hroot

/-- A document as it is written, given its parts. -/
def writtenChars (encoding : Option String) (doctype : Option (Doctype × String))
    (before : List Markup) (root : Markup) (after : List Markup) : List Char :=
  declarationChars encoding ++ (doctypeChars doctype ++
    (before.flatMap lineOf ++ (lineOf root ++ after.flatMap lineOf)))

section
variable {encoding : Option String} {doctype : Option (Doctype × String)}
  {before after : List Markup} {root : Markup}

/-- Whether a written document can be read: the name of its encoding, its document type, its depth. -/
def isReadable (encoding : Option String) (doctype : Option (Doctype × String)) (root : Markup) :
    Bool :=
  encoding.all (fun e => isEncodingName e.toList) && doctypeComplete doctype &&
    root.depth ≤ maxDepth

theorem takeProlog_written (hencoding : ∀ e ∈ encoding, '"' ∉ e.toList)
    (hdoctype : doctypeQuotable doctype)
    (hbefore : ∀ m ∈ before, m.isRemark = true ∧ m.sound = true) {rest : List Char}
    (hrest : startsTag rest = true) :
    takeProlog (declarationChars encoding ++ (doctypeChars doctype ++
      (before.flatMap lineOf ++ rest))) =
        if encoding.all (fun e => isEncodingName e.toList) && doctypeComplete doctype then
          some (⟨encoding.map fun e => ⟨"1.0".toList, some e.toList⟩, tokensOf before,
            doctypeTrimmed doctype⟩, rest)
        else none := by
  have hlines : ∀ ms : List Markup, ms.length ≤ (ms.flatMap lineOf).length := by
    intro ms
    induction ms with
    | nil => simp
    | cons m ms ih =>
      rw [List.flatMap_cons, List.length_append, lineOf, List.length_append]
      simp only [List.length_cons, List.length_nil]
      omega
  have hle := hlines before
  have hne : 0 < rest.length := by
    obtain ⟨c, more, rfl, -⟩ := startsTag_eq_true hrest
    simp
  have hread : ∀ fuel, (doctypeChars doctype ++ (before.flatMap lineOf ++ rest)).length < fuel →
      takeMisc fuel none (doctypeChars doctype ++ (before.flatMap lineOf ++ rest)) =
        if doctypeComplete doctype then some (tokensOf before, doctypeTrimmed doctype, rest)
        else none := by
    intro fuel hfuel
    simp only [List.length_append] at hfuel
    exact takeMisc_doctype hdoctype hbefore (by omega) hrest
  rw [takeProlog]
  cases encoding with
  | none =>
    rw [declarationChars, Option.map_none, Option.getD_none, List.nil_append,
      takeDeclared_none hbefore hrest]
    simp only [Option.bind_eq_bind, Option.bind_some]
    rw [hread _ (Nat.lt_succ_self _)]
    cases doctypeComplete doctype <;> rfl
  | some e =>
    rw [declarationChars, Option.map_some, Option.getD_some,
      takeDeclared_renderDeclaration (hencoding e rfl), Option.all_some]
    cases isEncodingName e.toList with
    | false => rfl
    | true =>
      rw [if_pos rfl]
      simp only [Option.bind_eq_bind, Option.bind_some]
      rw [takeMisc_newline, hread _ (by simp only [List.length_cons]; omega)]
      cases doctypeComplete doctype <;> rfl

/-- What is read of a written document, and when it is. -/
theorem readLines_written (hencoding : ∀ e ∈ encoding, '"' ∉ e.toList)
    (hdoctype : doctypeQuotable doctype)
    (hbefore : ∀ m ∈ before, m.isRemark = true ∧ m.sound = true)
    (hroot : root.isElement = true) (hsound : root.sound = true) (haccepted : root.accepted [])
    (hafter : ∀ m ∈ after, m.isRemark = true ∧ m.sound = true) :
    readLines (writtenChars encoding doctype before root after) =
      if isReadable encoding doctype root then
        some ⟨encoding.map fun e => ⟨"1.0".toList, some e.toList⟩, doctypeTrimmed doctype,
          before.map (·.resolve []) ++ root.resolve [] :: after.map (·.resolve [])⟩
      else none := by
  have hstart : startsTag (lineOf root ++ after.flatMap lineOf) = true := by
    rw [lineOf, List.append_assoc]
    exact startsTag_renderAt hroot hsound _
  have hdeclarations : ((doctypeTrimmed doctype).map (·.declarations)).getD {} = {} := by
    cases doctype <;> rfl
  -- the rest is the root, a line end, and more lines
  have hrest : lineOf root ++ after.flatMap lineOf =
      root.renderAt none ++ (renderInline (.text "\n" :: lined after) ++ []) := by
    rw [renderInline, renderInline_lined, lineOf, List.append_nil, List.append_assoc]
    rfl
  have hlined : soundAll (.text "\n" :: lined after) = true := by
    rw [soundAll_cons]
    exact ⟨by decide, fun _ => startsWithText_lined fun m hm => (hafter m hm).1,
      soundAll_lined hafter⟩
  have hnoText : root.isText = false := by
    cases root <;> simp_all [Markup.isElement, Markup.isText]
  have hlex := Markup.lexes_renderAt root hsound (fun htext => absurd htext (by simp [hnoText]))
    (Markup.lexes_renderInline _ hlined (by intro c hc; cases hc)
      (@lexes_nil (({} : Declarations).attributeEntity maxEntityDepth)))
  rw [← hrest, List.append_nil] at hlex
  have hplain : ∀ ps, Token.data ps ∈ root.tokens ++ tokensOf (.text "\n" :: lined after) →
      ps.any Piece.isEntity = false := by
    intro ps hps
    rcases List.mem_append.mp hps with hps | hps
    · exact isEntity_tokens root hps
    · exact isEntity_tokensOf _ hps
  -- what comes before the root has no elements
  have hfree : ∀ last, (⟨[], (before.map (·.resolve [])).reverse ++ [], last⟩ : Progress).hasRoot =
      false := by
    intro last
    rw [Progress.hasRoot, List.append_nil, List.any_eq_false]
    intro node hn
    obtain ⟨m, hm, rfl⟩ := List.mem_map.mp (List.mem_reverse.mp hn)
    simp [isElement_resolve_of_isRemark (hbefore m hm).1]
  obtain ⟨last₁, hlast₁, hrun₁⟩ := @run_remarks before hbefore [] none (by simp)
    (root.tokens ++ tokensOf (.text "\n" :: lined after))
  obtain ⟨last₂, hlast₂, hrun₂⟩ := run_tokens root hsound
    (p := ⟨[], (before.map (·.resolve [])).reverse ++ [], last₁⟩) haccepted
    (fun htext => absurd htext (by simp [hnoText])) (fun _ _ => hfree last₁) (Nat.zero_le _) hlast₁
    (tokensOf (.text "\n" :: lined after))
  obtain ⟨last₃, hlast₃, hrun₃⟩ := @run_lined after hafter
    (root.resolve [] :: (before.map (·.resolve [])).reverse) last₂ hlast₂ []
  rw [List.append_nil] at hrun₃
  rw [readLines, writtenChars, takeProlog_written hencoding hdoctype hbefore hstart, isReadable]
  cases encoding.all (fun e => isEncodingName e.toList) && doctypeComplete doctype with
  | false => rfl
  | true =>
    simp only [if_true, Option.bind_eq_bind, Option.bind_some, Bool.true_and, decide_eq_true_eq,
      hdeclarations, hlex.tokens, expandDocument_eq_self _ hplain, hrun₁, hrun₂, Option.pure_def]
    by_cases hdepth : root.depth ≤ maxDepth
    · have hhas : (⟨[], (after.map (·.resolve [])).reverse ++
          root.resolve [] :: (before.map (·.resolve [])).reverse, last₃⟩ : Progress).hasRoot =
            true := by
        rw [Progress.hasRoot, List.any_append, List.any_cons]
        cases root with
        | element name attributes children => simp [Markup.resolve, Node.isElement]
        | _ => cases hroot
      rw [if_pos (by simpa using hdepth), if_pos hdepth]
      simp only [Progress.add, List.append_nil, List.head?_nil, Option.map_none, Option.getD_none]
      rw [hrun₃, Progress.run, Option.bind_some, Progress.finish, hhas, if_pos (by simpa using hlast₃)]
      simp
    · rw [if_neg (by simpa using hdepth), if_neg hdepth]
      rfl

theorem not_mem_of_all {p : Char → Bool} {c : Char} {cs : List Char} (h : cs.all p = true)
    (hc : p c = false) : c ∉ cs := by
  intro hmem
  rw [List.all_eq_true.mp h c hmem] at hc
  cases hc

theorem not_mem_written {id : ExternalId} (h : id.Quotable) : '\r' ∉ id.written := by
  have hpublic : '\r' ∉ id.publicId.getD [] := not_mem_of_all h.publicChars (by decide)
  have hsystem : '\r' ∉ quotedSystemId (id.systemId.getD []) := by
    rw [quotedSystemId]
    split <;> simp [h.noReturn]
  rw [ExternalId.written]
  split
  · split
    · simp
    · rw [List.mem_append]
      rintro (hr | hr)
      · revert hr
        decide
      · exact hsystem hr
  · rw [List.mem_append, List.mem_cons, List.mem_append, List.mem_cons]
    rintro (hr | hr | hr | hr | hr)
    · revert hr
      decide
    · revert hr
      decide
    · exact hpublic hr
    · revert hr
      decide
    · split at hr
      · cases hr
      · rcases List.mem_cons.mp hr with hr | hr
        · revert hr
          decide
        · exact hsystem hr

theorem not_mem_doctypeChars (hdoctype : doctypeQuotable doctype) :
    '\r' ∉ doctypeChars doctype := by
  cases doctype with
  | none => simp [doctypeChars]
  | some x =>
    obtain ⟨hid, hname⟩ := hdoctype x rfl
    have hwritten := not_mem_written hid
    rw [doctypeChars, Option.map_some, Option.getD_some, toList_render]
    simp only [List.mem_append, List.mem_cons, List.not_mem_nil, or_false]
    rintro ((hr | hr | hr | hr | hr) | hr)
    · revert hr
      decide
    · revert hr
      decide
    · exact Markup.not_mem_of_isRawName hname hr
    · exact hwritten hr
    · revert hr
      decide
    · revert hr
      decide

theorem not_mem_declarationChars (h : ∀ e ∈ encoding, '\r' ∉ e.toList) :
    '\r' ∉ declarationChars encoding := by
  cases encoding with
  | none => simp [declarationChars]
  | some e =>
    have hsplit := renderDeclaration_append e []
    rw [List.append_nil] at hsplit
    rw [declarationChars, Option.map_some, Option.getD_some, hsplit, List.mem_append,
      List.mem_append]
    rintro (hr | hr | hr)
    · revert hr
      decide
    · exact h e rfl hr
    · revert hr
      decide

theorem unifyLineEnds_lines {ms : List Markup} (hms : ∀ m ∈ ms, m.sound = true)
    (rest : List Char) :
    Text.unifyLineEnds (ms.flatMap lineOf ++ rest) =
      (unifiedAll ms).flatMap lineOf ++ Text.unifyLineEnds rest := by
  induction ms with
  | nil => rfl
  | cons m ms ih =>
    rw [List.flatMap_cons, lineOf, List.append_assoc, List.append_assoc,
      Markup.unifyLineEnds_renderAt m (hms m (by simp)), List.singleton_append,
      Text.unifyLineEnds_cons (by decide), ih fun x hx => hms x (by simp [hx]),
      Markup.unifiedAll, List.flatMap_cons, lineOf]
    simp only [List.append_assoc, List.cons_append, List.nil_append]

theorem unifyLineEnds_writtenChars (hencoding : ∀ e ∈ encoding, '\r' ∉ e.toList)
    (hdoctype : '\r' ∉ doctypeChars doctype) (hbefore : ∀ m ∈ before, m.sound = true)
    (hsound : root.sound = true) (hafter : ∀ m ∈ after, m.sound = true) :
    Text.unifyLineEnds (writtenChars encoding doctype before root after) =
      writtenChars encoding doctype (unifiedAll before) root.unified (unifiedAll after) := by
  have htail := unifyLineEnds_lines hafter []
  rw [List.append_nil, Text.unifyLineEnds, List.append_nil] at htail
  rw [writtenChars, Text.unifyLineEnds_append_of_not_mem (not_mem_declarationChars hencoding),
    Text.unifyLineEnds_append_of_not_mem hdoctype, unifyLineEnds_lines hbefore, lineOf,
    List.append_assoc, Markup.unifyLineEnds_renderAt root hsound, List.singleton_append,
    Text.unifyLineEnds_cons (by decide), htail, writtenChars, lineOf, List.append_assoc,
    List.singleton_append]

theorem head?_writtenChars (hbefore : ∀ m ∈ before, m.isRemark = true)
    (hroot : root.isElement = true) :
    (writtenChars encoding doctype before root after).head? = some '<' := by
  rw [writtenChars]
  cases encoding with
  | some e =>
    have hsplit := renderDeclaration_append e
      (doctypeChars doctype ++ (before.flatMap lineOf ++ (lineOf root ++ after.flatMap lineOf)))
    rw [declarationChars, Option.map_some, Option.getD_some, hsplit]
    rfl
  | none =>
    rw [declarationChars, Option.map_none, Option.getD_none, List.nil_append]
    cases doctype with
    | some x =>
      rw [doctypeChars, Option.map_some, Option.getD_some, toList_render]
      rfl
    | none =>
      rw [doctypeChars, Option.map_none, Option.getD_none, List.nil_append]
      have hmark : ∀ (m : Markup) (rest : List Char), m.isText = false →
          (lineOf m ++ rest).head? = some '<' := by
        intro m rest htext
        rw [lineOf, List.append_assoc]
        have h := Markup.markupAhead_renderAt htext (['\n'] ++ rest)
        cases hc : (m.renderAt none ++ (['\n'] ++ rest)).head? with
        | none => simp at hc
        | some c => rw [h c hc]
      cases before with
      | nil => exact hmark root _ (by cases root <;> simp_all [Markup.isElement, Markup.isText])
      | cons m ms =>
        rw [List.flatMap_cons, List.append_assoc]
        exact hmark m _ (isText_of_isRemark (hbefore m (by simp)))

theorem isRemark_unified {m : Markup} (h : m.isRemark = true) : m.unified.isRemark = true := by
  cases m <;> simp_all [Markup.isRemark, Markup.unified]

mutual

theorem accepted_unified {scope : Scope} (m : Markup) (h : m.accepted scope) :
    m.unified.accepted scope := by
  cases m with
  | element name attributes children =>
    exact ⟨h.1, h.2.1, acceptedAll_unifiedAll children h.2.2⟩
  | _ => trivial

theorem acceptedAll_unifiedAll {scope : Scope} (ms : List Markup) (h : acceptedAll scope ms) :
    acceptedAll scope (unifiedAll ms) := by
  cases ms with
  | nil => trivial
  | cons m ms => exact ⟨accepted_unified m h.1, acceptedAll_unifiedAll ms h.2⟩

end

mutual

@[simp] theorem depth_unified (m : Markup) : m.unified.depth = m.depth := by
  cases m with
  | element name attributes children =>
    rw [Markup.unified, Markup.depth, Markup.depth, depthAll_unifiedAll children]
  | _ => rfl

@[simp] theorem depthAll_unifiedAll (ms : List Markup) : depthAll (unifiedAll ms) = depthAll ms := by
  cases ms with
  | nil => rfl
  | cons m ms =>
    rw [Markup.unifiedAll, depthAll, depthAll, depth_unified m, depthAll_unifiedAll ms]

end

theorem remarks_unifiedAll {ms : List Markup} (h : ∀ m ∈ ms, m.isRemark = true ∧ m.sound = true) :
    ∀ m ∈ unifiedAll ms, m.isRemark = true ∧ m.sound = true := by
  intro m hm
  rw [Markup.unifiedAll_eq_map, List.mem_map] at hm
  obtain ⟨x, hx, rfl⟩ := hm
  exact ⟨isRemark_unified (h x hx).1, Markup.sound_unified x (h x hx).2⟩

theorem isElement_unified {m : Markup} (h : m.isElement = true) : m.unified.isElement = true := by
  cases m with
  | element name attributes children => rfl
  | _ => cases h

section
variable (hencoding : ∀ e ∈ encoding, '"' ∉ e.toList ∧ '\r' ∉ e.toList) (hdoctype : doctypeQuotable doctype)
  (hbefore : ∀ m ∈ before, m.isRemark = true ∧ m.sound = true) (hroot : root.isElement = true)
  (hsound : root.sound = true) (hafter : ∀ m ∈ after, m.isRemark = true ∧ m.sound = true)

include hencoding hdoctype hbefore hroot hsound hafter

/-- A written document is read with the line ends in its markup unified. -/
theorem readDocument_writtenChars :
    readDocument (writtenChars encoding doctype before root after) =
      readLines (writtenChars encoding doctype (unifiedAll before) root.unified (unifiedAll after)) := by
  have hmark : (writtenChars encoding doctype before root after).head? ≠ some byteOrderMark := by
    rw [head?_writtenChars (fun m hm => (hbefore m hm).1) hroot]
    decide
  rw [readDocument, dropMark_of_head? hmark, unifyLineEnds_writtenChars (fun e he => (hencoding e he).2)
    (not_mem_doctypeChars hdoctype) (fun m hm => (hbefore m hm).2) hsound fun m hm => (hafter m hm).2]

/-- Whatever is read of a written document, its document type is the one that was written. -/
theorem doctype_readDocument_written {contents : Contents}
    (h : readDocument (writtenChars encoding doctype before root after) = some contents) :
    contents.doctype = doctypeTrimmed doctype := by
  have hstart : startsTag (lineOf root.unified ++ (unifiedAll after).flatMap lineOf) = true := by
    rw [lineOf, List.append_assoc]
    exact startsTag_renderAt (isElement_unified hroot) (Markup.sound_unified root hsound) _
  rw [readDocument_writtenChars hencoding hdoctype hbefore hroot hsound hafter, readLines, writtenChars,
    takeProlog_written (fun e he => (hencoding e he).1) hdoctype (remarks_unifiedAll hbefore) hstart] at h
  obtain ⟨⟨prolog, rest⟩, hprolog, h⟩ := Option.bind_eq_some_iff.mp h
  obtain ⟨body, -, h⟩ := Option.bind_eq_some_iff.mp h
  obtain ⟨expanded, -, h⟩ := Option.bind_eq_some_iff.mp h
  obtain ⟨p, -, h⟩ := Option.bind_eq_some_iff.mp h
  obtain ⟨nodes, -, h⟩ := Option.bind_eq_some_iff.mp h
  cases h
  split at hprolog
  · cases hprolog
    rfl
  · cases hprolog

/-- What is read of a written document with line ends of any kind, and when it is. -/
theorem readDocument_written (haccepted : root.accepted []) :
    readDocument (writtenChars encoding doctype before root after) =
      if isReadable encoding doctype root then
        some ⟨encoding.map fun e => ⟨"1.0".toList, some e.toList⟩, doctypeTrimmed doctype,
          before.map (·.unified.resolve []) ++
            root.unified.resolve [] :: after.map (·.unified.resolve [])⟩
      else none := by
  have hread := readLines_written (fun e he => (hencoding e he).1) hdoctype
    (remarks_unifiedAll hbefore) (isElement_unified hroot) (Markup.sound_unified root hsound)
    (accepted_unified root haccepted) (remarks_unifiedAll hafter)
  have hreadable : isReadable encoding doctype root.unified = isReadable encoding doctype root := by
    rw [isReadable, isReadable, depth_unified]
  rw [readDocument_writtenChars hencoding hdoctype hbefore hroot hsound hafter, hread, hreadable]
  simp only [Markup.unifiedAll_eq_map, List.map_map, Function.comp_def]

end

end

end Manifest.Xml
