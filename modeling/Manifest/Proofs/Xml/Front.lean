import Manifest.Proofs.Xml.Prolog

/-! Reading takes from the front. What a scan leaves is the end of the text that it was given, so that
what is read holds no character that the text does not hold. -/

set_option autoImplicit false

namespace Manifest.Xml

theorem skipSpace_suffix (cs : List Char) : skipSpace cs <:+ cs :=
  List.dropWhile_suffix _

theorem skipSpaces1_suffix {cs rest : List Char} (h : skipSpaces1 cs = some rest) : rest <:+ cs := by
  cases cs with
  | nil => cases h
  | cons c cs =>
    rw [skipSpaces1] at h
    split at h
    · cases h
      exact (skipSpace_suffix cs).trans (List.suffix_cons c cs)
    · cases h

theorem skipWord_suffix {word cs rest : List Char} (h : skipWord word cs = some rest) :
    rest <:+ cs := by
  rw [skipWord_eq_some_iff.mp h]
  exact List.suffix_append word rest

theorem splitAtWord_eq_some {word cs before after : List Char}
    (h : splitAtWord word cs = some (before, after)) : cs = before ++ (word ++ after) := by
  induction cs generalizing before with
  | nil => cases h
  | cons c cs ih =>
    rw [splitAtWord] at h
    split at h
    · next rest hrest =>
      rw [Option.some.injEq, Prod.mk.injEq] at h
      rw [← h.1, ← h.2, skipWord_eq_some_iff.mp hrest]
      rfl
    · obtain ⟨⟨b, a⟩, hsplit, hpair⟩ := Option.map_eq_some_iff.mp h
      cases hpair
      rw [ih hsplit]
      rfl

theorem takeName_eq_some {cs name rest : List Char} (h : takeName cs = some (name, rest)) :
    isRawName name = true ∧ cs = name ++ rest := by
  cases cs with
  | nil => cases h
  | cons c cs =>
    rw [takeName] at h
    split at h
    · next hc =>
      cases h
      constructor
      · rw [isRawName, hc, Bool.true_and, List.all_eq_true]
        exact fun x hx => List.mem_takeWhile_imp hx
      · rw [List.cons_append, List.takeWhile_append_dropWhile]
    · cases h

theorem takeName_suffix {cs name rest : List Char} (h : takeName cs = some (name, rest)) :
    rest <:+ cs :=
  (takeName_eq_some h).2 ▸ List.suffix_append name rest

theorem takeQuoted_suffix {cs value rest : List Char} (h : takeQuoted cs = some (value, rest)) :
    rest <:+ cs := by
  cases cs with
  | nil => cases h
  | cons mark cs =>
    rw [takeQuoted] at h
    split at h
    · split at h
      · cases h
      · next c tail hdrop =>
        cases h
        have hsuffix : c :: rest <:+ cs := hdrop ▸ List.dropWhile_suffix _
        exact ((List.suffix_cons c rest).trans hsuffix).trans (List.suffix_cons mark cs)
    · cases h

theorem skipEquals_suffix {cs rest : List Char} (h : skipEquals cs = some rest) : rest <:+ cs := by
  obtain ⟨more, hword, rfl⟩ := Option.map_eq_some_iff.mp h
  exact (skipSpace_suffix more).trans ((skipWord_suffix hword).trans (skipSpace_suffix cs))

section
variable {entity : EntityText}

theorem takeAttribute_suffix {cs rest : List Char} {a : List Char × List Char}
    (h : takeAttribute entity cs = some (a, rest)) : isRawName a.1 = true ∧ rest <:+ cs := by
  simp only [takeAttribute, Option.bind_eq_bind, Option.bind_eq_some_iff, Option.pure_def,
    Option.some.injEq] at h
  obtain ⟨⟨name, cs₁⟩, hname, cs₂, hequals, ⟨raw, cs₃⟩, hquoted, value, -, hpair⟩ := h
  cases hpair
  exact ⟨(takeName_eq_some hname).1,
    (takeQuoted_suffix hquoted).trans ((skipEquals_suffix hequals).trans (takeName_suffix hname))⟩

theorem takeAttributes_suffix {fuel : Nat} {cs rest : List Char}
    {attributes : List (List Char × List Char)} {closed : Bool}
    (h : takeAttributes entity fuel cs = some (attributes, closed, rest)) :
    (∀ a ∈ attributes, isRawName a.1 = true) ∧ rest <:+ cs := by
  induction fuel generalizing cs attributes with
  | zero =>
    rw [takeAttributes.eq_def] at h
    split at h
    · cases h
      exact ⟨nofun, List.suffix_cons _ _⟩
    · cases h
      exact ⟨nofun, (List.suffix_cons _ _).trans (List.suffix_cons _ _)⟩
    · cases h
    · next heq _ _ => cases heq
  | succ fuel ih =>
    rw [takeAttributes.eq_def] at h
    split at h
    · cases h
      exact ⟨nofun, List.suffix_cons _ _⟩
    · cases h
      exact ⟨nofun, (List.suffix_cons _ _).trans (List.suffix_cons _ _)⟩
    · next heq _ _ => cases heq
    · next heq _ _ =>
      cases heq
      obtain ⟨⟨first, cs₁⟩, hfirst, h⟩ := Option.bind_eq_some_iff.mp h
      obtain ⟨hraw, hsuffix⟩ := takeAttribute_suffix hfirst
      have hone : ∀ a ∈ [first], isRawName a.1 = true := by
        intro a ha
        rw [List.mem_singleton.mp ha]
        exact hraw
      dsimp only at h
      split at h
      · cases h
        exact ⟨hone, (List.suffix_cons _ _).trans hsuffix⟩
      · cases h
        exact ⟨hone, ((List.suffix_cons _ _).trans (List.suffix_cons _ _)).trans hsuffix⟩
      · obtain ⟨cs₂, hspaces, h⟩ := Option.bind_eq_some_iff.mp h
        obtain ⟨⟨more, closed', rest'⟩, hmore, h⟩ := Option.bind_eq_some_iff.mp h
        cases h
        obtain ⟨hmore, hrest⟩ := ih hmore
        refine ⟨fun a ha => ?_, (hrest.trans (skipSpaces1_suffix hspaces)).trans hsuffix⟩
        rcases List.mem_cons.mp ha with rfl | ha
        · exact hraw
        · exact hmore a ha

/-- Whether a token is such as reading gives: its names are names, and an instruction has no white space in
front of its value. -/
def Token.isRead : Token → Prop
  | .startTag name attributes _ =>
    isRawName name = true ∧ ∀ a ∈ attributes, isRawName a.1 = true
  | .instruction _ value => skipSpace value = value
  | _ => True

/-- Whether what is kept verbatim of a token has no line end but line feeds. -/
def Token.isCalm : Token → Prop
  | .comment chars => '\r' ∉ chars
  | .instruction _ value => '\r' ∉ value
  | _ => True

theorem takeStartTag_suffix {cs rest : List Char} {t : Token}
    (h : takeStartTag entity cs = some (t, rest)) : t.isRead ∧ rest <:+ cs ∧ t.isCalm := by
  simp only [takeStartTag, Option.bind_eq_bind, Option.bind_eq_some_iff, Option.pure_def,
    Option.some.injEq] at h
  obtain ⟨⟨name, cs₁⟩, hname, ⟨attributes, closed, rest'⟩, hattributes, hpair⟩ := h
  cases hpair
  obtain ⟨hraw, hsuffix⟩ := takeAttributes_suffix hattributes
  exact ⟨⟨(takeName_eq_some hname).1, hraw⟩,
    (hsuffix.trans (skipSpace_suffix cs₁)).trans (takeName_suffix hname), trivial⟩

theorem takeEndTag_suffix {cs rest : List Char} {t : Token} (h : takeEndTag cs = some (t, rest)) :
    t.isRead ∧ rest <:+ cs ∧ t.isCalm := by
  simp only [takeEndTag, Option.bind_eq_bind, Option.bind_eq_some_iff, Option.pure_def,
    Option.some.injEq] at h
  obtain ⟨⟨name, cs₁⟩, hname, cs₂, hword, hpair⟩ := h
  cases hpair
  exact ⟨trivial, ((skipWord_suffix hword).trans (skipSpace_suffix cs₁)).trans (takeName_suffix hname),
    trivial⟩

theorem takeComment_suffix {cs chars rest : List Char} (h : takeComment cs = some (chars, rest)) :
    chars <+: cs ∧ rest <:+ cs := by
  simp only [takeComment, Option.bind_eq_bind, Option.bind_eq_some_iff] at h
  obtain ⟨⟨before, cs₁⟩, hsplit, cs₂, hword, h⟩ := h
  split at h
  · cases h
    have hcs := splitAtWord_eq_some hsplit
    have hsuffix : cs₁ <:+ cs := by
      rw [hcs, ← List.append_assoc]
      exact List.suffix_append _ cs₁
    exact ⟨hcs ▸ List.prefix_append _ _, (skipWord_suffix hword).trans hsuffix⟩
  · cases h

theorem not_mem_of_suffix {cs rest : List Char} (h : rest <:+ cs) (hcs : '\r' ∉ cs) : '\r' ∉ rest :=
  fun hmem => hcs (h.subset hmem)

theorem not_mem_of_front {cs front : List Char} (h : front <+: cs) (hcs : '\r' ∉ cs) :
    '\r' ∉ front :=
  fun hmem => hcs (h.subset hmem)

theorem takeInstruction_suffix {cs target value rest : List Char}
    (h : takeInstruction cs = some ((target, value), rest)) :
    rest <:+ cs ∧ ('\r' ∉ cs → '\r' ∉ value) := by
  rw [takeInstruction] at h
  obtain ⟨⟨name, cs₁⟩, hname, h⟩ := Option.bind_eq_some_iff.mp h
  have hsuffix := takeName_suffix hname
  dsimp only at h
  split at h
  · cases h
  · split at h
    · next hword =>
      cases h
      exact ⟨(skipWord_suffix hword).trans hsuffix, fun _ => by simp⟩
    · obtain ⟨cs₂, hspaces, h⟩ := Option.bind_eq_some_iff.mp h
      obtain ⟨⟨before, cs₃⟩, hsplit, h⟩ := Option.bind_eq_some_iff.mp h
      dsimp only at h
      split at h
      · cases h
        have hcs := splitAtWord_eq_some hsplit
        have hrest : rest <:+ cs₂ := by
          rw [hcs, ← List.append_assoc]
          exact List.suffix_append _ rest
        have hcs₂ := (skipSpaces1_suffix hspaces).trans hsuffix
        exact ⟨hrest.trans hcs₂, fun hno =>
          not_mem_of_front (hcs ▸ List.prefix_append _ _) (not_mem_of_suffix hcs₂ hno)⟩
      · cases h

theorem head?_skipSpace (cs : List Char) : ∀ c ∈ (skipSpace cs).head?, isSpace c = false := by
  intro c hc
  have h := List.head?_dropWhile_not isSpace cs
  rw [skipSpace] at hc
  rw [Option.mem_def.mp hc] at h
  simpa using h

theorem head?_skipSpaces1 {cs rest : List Char} (h : skipSpaces1 cs = some rest) :
    ∀ c ∈ rest.head?, isSpace c = false := by
  cases cs with
  | nil => cases h
  | cons c cs =>
    rw [skipSpaces1] at h
    split at h
    · cases h
      exact head?_skipSpace cs
    · cases h

/-- The value of an instruction begins behind the white space. -/
theorem takeInstruction_value {cs target value rest : List Char}
    (h : takeInstruction cs = some ((target, value), rest)) : skipSpace value = value := by
  rw [takeInstruction] at h
  obtain ⟨⟨name, cs₁⟩, hname, h⟩ := Option.bind_eq_some_iff.mp h
  dsimp only at h
  split at h
  · cases h
  · split at h
    · cases h
      rfl
    · obtain ⟨cs₂, hspaces, h⟩ := Option.bind_eq_some_iff.mp h
      obtain ⟨⟨before, cs₃⟩, hsplit, h⟩ := Option.bind_eq_some_iff.mp h
      dsimp only at h
      split at h
      · cases h
        apply skipSpace_eq_self
        intro c hc
        apply head?_skipSpaces1 hspaces c
        rw [splitAtWord_eq_some hsplit, List.head?_append, Option.mem_def.mp hc]
        rfl
      · cases h

theorem takeVerbatim_suffix {cs chars rest : List Char} (h : takeVerbatim cs = some (chars, rest)) :
    rest <:+ cs := by
  rw [takeVerbatim] at h
  obtain ⟨⟨before, cs₁⟩, hsplit, h⟩ := Option.bind_eq_some_iff.mp h
  dsimp only at h
  split at h
  · rw [Option.pure_def, Option.some.injEq, Prod.mk.injEq] at h
    rw [← h.2]
    rw [splitAtWord_eq_some hsplit, ← List.append_assoc]
    exact List.suffix_append _ cs₁
  · cases h

theorem takeData_suffix {cs rest : List Char} {t : Token} (h : takeData cs = some (t, rest)) :
    t.isRead ∧ rest <:+ cs ∧ t.isCalm := by
  rw [takeData] at h
  split at h
  · cases h
  · obtain ⟨ps, -, h⟩ := Option.bind_eq_some_iff.mp h
    cases h
    exact ⟨trivial, List.dropWhile_suffix _, trivial⟩

/-- A token that is read from a text; where that has no carriage returns, the token has none. -/
theorem takeToken_suffix {cs rest : List Char} {t : Token}
    (h : takeToken entity cs = some (t, rest)) :
    t.isRead ∧ rest <:+ cs ∧ ('\r' ∉ cs → t.isCalm) := by
  have hfront : ∀ {front back : List Char}, '\r' ∉ front ++ back → '\r' ∉ back :=
    fun {front back} hno => not_mem_of_suffix (List.suffix_append front back) hno
  rw [takeToken.eq_def] at h
  split at h
  · next cs =>
    obtain ⟨⟨chars, rest'⟩, hcomment, hpair⟩ := Option.map_eq_some_iff.mp h
    cases hpair
    obtain ⟨hneeded, hsuffix⟩ := takeComment_suffix hcomment
    exact ⟨trivial, hsuffix.trans (List.suffix_append ['<', '!', '-', '-'] cs),
      fun hcs => not_mem_of_front hneeded (@hfront ['<', '!', '-', '-'] cs hcs)⟩
  · next cs =>
    obtain ⟨⟨chars, rest'⟩, hverbatim, hpair⟩ := Option.map_eq_some_iff.mp h
    cases hpair
    exact ⟨trivial, (takeVerbatim_suffix hverbatim).trans
      (List.suffix_append ['<', '!', '[', 'C', 'D', 'A', 'T', 'A', '['] cs), fun _ => trivial⟩
  · next cs =>
    obtain ⟨⟨⟨target, value⟩, rest'⟩, hinstruction, hpair⟩ := Option.map_eq_some_iff.mp h
    cases hpair
    obtain ⟨hsuffix, hvalue⟩ := takeInstruction_suffix hinstruction
    exact ⟨takeInstruction_value hinstruction, hsuffix.trans (List.suffix_append ['<', '?'] cs),
      fun hcs => hvalue (@hfront ['<', '?'] cs hcs)⟩
  · next cs =>
    obtain ⟨hread, hsuffix, hcalm⟩ := takeEndTag_suffix h
    exact ⟨hread, hsuffix.trans (List.suffix_append ['<', '/'] cs), fun _ => hcalm⟩
  · next cs _ _ _ _ =>
    obtain ⟨hread, hsuffix, hcalm⟩ := takeStartTag_suffix h
    exact ⟨hread, hsuffix.trans (List.suffix_cons '<' cs), fun _ => hcalm⟩
  · obtain ⟨hread, hsuffix, hcalm⟩ := takeData_suffix h
    exact ⟨hread, hsuffix, fun _ => hcalm⟩

theorem isRead_tokensWithin {fuel : Nat} {cs : List Char} {ts : List Token}
    (h : tokensWithin entity fuel cs = some ts) :
    ∀ t ∈ ts, t.isRead ∧ ('\r' ∉ cs → t.isCalm) := by
  induction fuel generalizing cs ts with
  | zero =>
    cases cs with
    | nil => cases h; exact nofun
    | cons c cs => cases h
  | succ fuel ih =>
    cases cs with
    | nil => cases h; exact nofun
    | cons c cs =>
      simp only [tokensWithin, Option.bind_eq_bind, Option.bind_eq_some_iff, Option.pure_def,
        Option.some.injEq] at h
      obtain ⟨⟨t, rest⟩, htoken, more, hmore, rfl⟩ := h
      obtain ⟨hread, hsuffix, hcalm⟩ := takeToken_suffix htoken
      intro x hx
      rcases List.mem_cons.mp hx with rfl | hx
      · exact ⟨hread, hcalm⟩
      · obtain ⟨hread, hcalm⟩ := ih hmore x hx
        exact ⟨hread, fun hcs => hcalm (not_mem_of_suffix hsuffix hcs)⟩

end

/-! What stands before the root. -/

theorem takeSetting_suffix {keyword : String} {cs value rest : List Char}
    (h : takeSetting keyword cs = some (value, rest)) : rest <:+ cs := by
  rw [takeSetting] at h
  obtain ⟨cs₁, hword, h⟩ := Option.bind_eq_some_iff.mp h
  obtain ⟨cs₂, hequals, h⟩ := Option.bind_eq_some_iff.mp h
  exact (takeQuoted_suffix h).trans ((skipEquals_suffix hequals).trans (skipWord_suffix hword))

theorem endXmlDeclaration_suffix {cs rest : List Char} (h : endXmlDeclaration cs = some rest) :
    rest <:+ cs :=
  (skipWord_suffix h).trans (skipSpace_suffix cs)

theorem takeStandalone_suffix {cs rest : List Char} (h : takeStandalone cs = some rest) :
    rest <:+ cs := by
  rw [takeStandalone] at h
  split at h
  · next hend =>
    cases h
    exact endXmlDeclaration_suffix hend
  · obtain ⟨cs₁, hspaces, h⟩ := Option.bind_eq_some_iff.mp h
    obtain ⟨⟨value, cs₂⟩, hsetting, h⟩ := Option.bind_eq_some_iff.mp h
    dsimp only at h
    split at h
    · exact (endXmlDeclaration_suffix h).trans
        ((takeSetting_suffix hsetting).trans (skipSpaces1_suffix hspaces))
    · cases h

theorem takeXmlDeclaration_suffix {cs rest : List Char} {declaration : Declaration}
    (h : takeXmlDeclaration cs = some (declaration, rest)) :
    (∀ e ∈ declaration.encoding, isEncodingName e = true) ∧ rest <:+ cs := by
  rw [takeXmlDeclaration] at h
  obtain ⟨⟨version, cs₁⟩, hversion, h⟩ := Option.bind_eq_some_iff.mp h
  have hsuffix := (takeSetting_suffix hversion).trans (skipSpace_suffix cs)
  dsimp only at h
  split at h
  · cases h
  · split at h
    · next encoding cs₂ hencoding =>
      obtain ⟨cs₃, hspaces, hsetting⟩ := Option.bind_eq_some_iff.mp hencoding
      split at h
      · next hname =>
        obtain ⟨rest', hstandalone, h⟩ := Option.bind_eq_some_iff.mp h
        cases h
        refine ⟨fun e he => ?_, ?_⟩
        · cases he
          exact hname
        · exact (takeStandalone_suffix hstandalone).trans ((takeSetting_suffix hsetting).trans
            ((skipSpaces1_suffix hspaces).trans hsuffix))
      · cases h
    · obtain ⟨rest', hstandalone, h⟩ := Option.bind_eq_some_iff.mp h
      cases h
      refine ⟨?_, (takeStandalone_suffix hstandalone).trans hsuffix⟩
      rintro _ ⟨⟩

theorem takeDeclared_suffix {cs rest : List Char} {declaration : Option Declaration}
    (h : takeDeclared cs = some (declaration, rest)) :
    (∀ d ∈ declaration, ∀ e ∈ d.encoding, isEncodingName e = true) ∧ rest <:+ cs := by
  rw [takeDeclared] at h
  split at h
  · next cs₁ hopen =>
    obtain ⟨cs₂, hword, hspaces⟩ := Option.bind_eq_some_iff.mp hopen
    obtain ⟨⟨d, rest'⟩, hdeclaration, h⟩ := Option.map_eq_some_iff.mp h
    cases h
    obtain ⟨hname, hsuffix⟩ := takeXmlDeclaration_suffix hdeclaration
    refine ⟨fun d hd => ?_, ?_⟩
    · cases hd
      exact hname
    · exact hsuffix.trans ((skipSpaces1_suffix hspaces).trans (skipWord_suffix hword))
  · cases h
    refine ⟨?_, List.suffix_refl cs⟩
    rintro _ ⟨⟩

theorem takeExternalId_suffix {cs rest : List Char} {id : ExternalId}
    (h : takeExternalId cs = some (id, rest)) : rest <:+ cs := by
  have hsystem : ∀ {cs rest value : List Char}, takeSystemLiteral cs = some (value, rest) →
      rest <:+ cs := by
    intro cs rest value h
    rw [takeSystemLiteral] at h
    obtain ⟨⟨raw, rest'⟩, hquoted, h⟩ := Option.bind_eq_some_iff.mp h
    dsimp only at h
    split at h
    · cases h
      exact takeQuoted_suffix hquoted
    · cases h
  have hpublic : ∀ {cs rest value : List Char}, takePublicLiteral cs = some (value, rest) →
      rest <:+ cs := by
    intro cs rest value h
    rw [takePublicLiteral] at h
    obtain ⟨⟨raw, rest'⟩, hquoted, h⟩ := Option.bind_eq_some_iff.mp h
    dsimp only at h
    split at h
    · cases h
      exact takeQuoted_suffix hquoted
    · cases h
  rw [takeExternalId] at h
  split at h
  · next cs₁ hword =>
    obtain ⟨cs₂, hspaces, h⟩ := Option.bind_eq_some_iff.mp h
    obtain ⟨⟨systemId, rest'⟩, hliteral, h⟩ := Option.bind_eq_some_iff.mp h
    cases h
    exact (hsystem hliteral).trans ((skipSpaces1_suffix hspaces).trans (skipWord_suffix hword))
  · obtain ⟨cs₁, hword, h⟩ := Option.bind_eq_some_iff.mp h
    obtain ⟨cs₂, hspaces, h⟩ := Option.bind_eq_some_iff.mp h
    obtain ⟨⟨publicId, cs₃⟩, hliteral, h⟩ := Option.bind_eq_some_iff.mp h
    obtain ⟨cs₄, hspaces', h⟩ := Option.bind_eq_some_iff.mp h
    obtain ⟨⟨systemId, rest'⟩, hliteral', h⟩ := Option.bind_eq_some_iff.mp h
    cases h
    exact (hsystem hliteral').trans ((skipSpaces1_suffix hspaces').trans ((hpublic hliteral).trans
      ((skipSpaces1_suffix hspaces).trans (skipWord_suffix hword))))

/-- What stands between quotation marks does not hold the mark. -/
theorem takeQuoted_value {cs value rest : List Char} (h : takeQuoted cs = some (value, rest)) :
    ('"' ∉ value ∨ '\'' ∉ value) ∧ ∀ c ∈ value, c ∈ cs := by
  cases cs with
  | nil => cases h
  | cons mark cs =>
    rw [takeQuoted] at h
    split at h
    · next hmark =>
      split at h
      · cases h
      · cases h
        have hno : mark ∉ cs.takeWhile (· != mark) := fun hmem => by
          simpa using List.mem_takeWhile_imp hmem
        refine ⟨?_, fun c hc => .tail _ ((List.takeWhile_sublist _).mem hc)⟩
        rw [Bool.or_eq_true, beq_iff_eq, beq_iff_eq] at hmark
        rcases hmark with rfl | rfl
        · exact Or.inl hno
        · exact Or.inr hno
    · cases h

theorem takeExternalId_quotable {cs rest : List Char} {id : ExternalId} (hcs : '\r' ∉ cs)
    (h : takeExternalId cs = some (id, rest)) : id.Quotable := by
  have hsystem : ∀ {cs rest value : List Char}, '\r' ∉ cs →
      takeSystemLiteral cs = some (value, rest) →
      value.all isChar = true ∧ ('"' ∉ value ∨ '\'' ∉ value) ∧ '\r' ∉ value := by
    intro cs rest value hcs h
    rw [takeSystemLiteral] at h
    obtain ⟨⟨raw, rest'⟩, hquoted, h⟩ := Option.bind_eq_some_iff.mp h
    dsimp only at h
    split at h
    · next hall =>
      cases h
      obtain ⟨hmark, hmem⟩ := takeQuoted_value hquoted
      exact ⟨hall, hmark, fun hr => hcs (hmem _ hr)⟩
    · cases h
  rw [takeExternalId] at h
  split at h
  · next cs₁ hword =>
    obtain ⟨cs₂, hspaces, h⟩ := Option.bind_eq_some_iff.mp h
    obtain ⟨⟨systemId, rest'⟩, hliteral, h⟩ := Option.bind_eq_some_iff.mp h
    cases h
    have hsuffix := (skipSpaces1_suffix hspaces).trans (skipWord_suffix hword)
    obtain ⟨hall, hmark, hno⟩ := hsystem (not_mem_of_suffix hsuffix hcs) hliteral
    exact ⟨rfl, hall, hmark, hno⟩
  · obtain ⟨cs₁, hword, h⟩ := Option.bind_eq_some_iff.mp h
    obtain ⟨cs₂, hspaces, h⟩ := Option.bind_eq_some_iff.mp h
    obtain ⟨⟨publicId, cs₃⟩, hliteral, h⟩ := Option.bind_eq_some_iff.mp h
    obtain ⟨cs₄, hspaces', h⟩ := Option.bind_eq_some_iff.mp h
    obtain ⟨⟨systemId, rest'⟩, hliteral', h⟩ := Option.bind_eq_some_iff.mp h
    cases h
    have hpublic : publicId.all isPublicChar = true ∧ cs₃ <:+ cs₂ := by
      rw [takePublicLiteral] at hliteral
      obtain ⟨⟨raw, rest''⟩, hquoted, hliteral⟩ := Option.bind_eq_some_iff.mp hliteral
      dsimp only at hliteral
      split at hliteral
      · next hall =>
        cases hliteral
        exact ⟨hall, takeQuoted_suffix hquoted⟩
      · cases hliteral
    have hsuffix := (skipSpaces1_suffix hspaces').trans (hpublic.2.trans
      ((skipSpaces1_suffix hspaces).trans (skipWord_suffix hword)))
    obtain ⟨hall, hmark, hno⟩ := hsystem (not_mem_of_suffix hsuffix hcs) hliteral'
    exact ⟨hpublic.1, hall, hmark, hno⟩

/-- The identifiers of a document type that is read can be written. -/
theorem takeDoctype_quotable {cs rest : List Char} {type : Doctype} (hcs : '\r' ∉ cs)
    (h : takeDoctype cs = some (type, rest)) : type.id.Quotable := by
  rw [takeDoctype] at h
  obtain ⟨cs₁, hspaces, h⟩ := Option.bind_eq_some_iff.mp h
  obtain ⟨⟨name, cs₂⟩, hname, h⟩ := Option.bind_eq_some_iff.mp h
  have hsuffix := (skipSpace_suffix cs₂).trans
    ((takeName_suffix hname).trans (skipSpaces1_suffix hspaces))
  have hid : ((takeExternalId (skipSpace cs₂)).getD ({}, skipSpace cs₂)).1.Quotable := by
    cases hx : takeExternalId (skipSpace cs₂) with
    | none => exact ⟨rfl, rfl, Or.inl (by simp), by simp⟩
    | some x => exact takeExternalId_quotable (not_mem_of_suffix hsuffix hcs) hx
  dsimp only at h
  split at h
  · cases h
    exact hid
  · obtain ⟨⟨declarations, cs₃⟩, -, h⟩ := Option.bind_eq_some_iff.mp h
    obtain ⟨rest', -, h⟩ := Option.bind_eq_some_iff.mp h
    cases h
    exact hid
  · cases h

/-- A document type without an internal subset declares nothing. -/
theorem takeDoctype_suffix {cs rest : List Char} {type : Doctype}
    (h : takeDoctype cs = some (type, rest)) (hsubset : type.hasSubset = false) :
    type.declarations = {} ∧ rest <:+ cs := by
  rw [takeDoctype] at h
  obtain ⟨cs₁, hspaces, h⟩ := Option.bind_eq_some_iff.mp h
  obtain ⟨⟨name, cs₂⟩, hname, h⟩ := Option.bind_eq_some_iff.mp h
  have hsuffix := (takeName_suffix hname).trans (skipSpaces1_suffix hspaces)
  have hid : ((takeExternalId (skipSpace cs₂)).getD ({}, skipSpace cs₂)).2 <:+ cs₂ := by
    cases hx : takeExternalId (skipSpace cs₂) with
    | none => exact skipSpace_suffix cs₂
    | some x => exact (takeExternalId_suffix hx).trans (skipSpace_suffix cs₂)
  dsimp only at h
  split at h
  · next heq =>
    cases h
    refine ⟨rfl, ?_⟩
    have hbracket := skipSpace_suffix ((takeExternalId (skipSpace cs₂)).getD ({}, skipSpace cs₂)).2
    rw [heq] at hbracket
    exact (((List.suffix_cons '>' rest).trans hbracket).trans hid).trans hsuffix
  · obtain ⟨⟨declarations, cs₃⟩, -, h⟩ := Option.bind_eq_some_iff.mp h
    obtain ⟨rest', -, h⟩ := Option.bind_eq_some_iff.mp h
    cases h
    cases hsubset
  · cases h

theorem takeMisc_doctype_eq {fuel : Nat} {type : Doctype} {cs rest : List Char} {ts : List Token}
    {doctype : Option Doctype} (h : takeMisc fuel (some type) cs = some (ts, doctype, rest)) :
    doctype = some type := by
  induction fuel generalizing cs ts with
  | zero => cases h
  | succ fuel ih =>
    rw [takeMisc] at h
    split at h
    · obtain ⟨⟨chars, cs₁⟩, -, h⟩ := Option.bind_eq_some_iff.mp h
      obtain ⟨⟨more, doctype', rest'⟩, hmore, h⟩ := Option.bind_eq_some_iff.mp h
      cases h
      exact ih hmore
    · obtain ⟨⟨⟨target, value⟩, cs₁⟩, -, h⟩ := Option.bind_eq_some_iff.mp h
      obtain ⟨⟨more, doctype', rest'⟩, hmore, h⟩ := Option.bind_eq_some_iff.mp h
      cases h
      exact ih hmore
    · split at h
      · cases h
      · cases h
        rfl

/-- Reading up to the root, where every document type has no internal subset. -/
theorem takeMisc_suffix {fuel : Nat} {cs rest : List Char} {ts : List Token}
    {before after : Option Doctype} (hcs : '\r' ∉ cs)
    (h : takeMisc fuel before cs = some (ts, after, rest))
    (hsubset : ∀ type ∈ after, type.hasSubset = false)
    (hbefore : ∀ type ∈ before, type.declarations = {}) :
    (∀ t ∈ ts, t.isCalm) ∧ rest <:+ cs ∧ ∀ type ∈ after, type.declarations = {} := by
  induction fuel generalizing cs ts before with
  | zero => cases h
  | succ fuel ih =>
    rw [takeMisc] at h
    have hspace := skipSpace_suffix cs
    split at h
    · next cs₁ hstart =>
      obtain ⟨⟨chars, cs₂⟩, hcomment, h⟩ := Option.bind_eq_some_iff.mp h
      obtain ⟨⟨more, doctype', rest'⟩, hmore, h⟩ := Option.bind_eq_some_iff.mp h
      cases h
      obtain ⟨hneeded, hsuffix⟩ := takeComment_suffix hcomment
      have hopen : cs₁ <:+ cs := by
        rw [hstart] at hspace
        exact (List.suffix_append ['<', '!', '-', '-'] cs₁).trans hspace
      obtain ⟨hread, hrest, hnone⟩ := ih (not_mem_of_suffix (hsuffix.trans hopen) hcs) hmore hbefore
      refine ⟨fun t ht => ?_, hrest.trans (hsuffix.trans hopen), hnone⟩
      rcases List.mem_cons.mp ht with rfl | ht
      · exact not_mem_of_front hneeded (not_mem_of_suffix hopen hcs)
      · exact hread t ht
    · next cs₁ hstart =>
      obtain ⟨⟨⟨target, value⟩, cs₂⟩, hinstruction, h⟩ := Option.bind_eq_some_iff.mp h
      obtain ⟨⟨more, doctype', rest'⟩, hmore, h⟩ := Option.bind_eq_some_iff.mp h
      cases h
      obtain ⟨hsuffix, hvalue⟩ := takeInstruction_suffix hinstruction
      have hopen : cs₁ <:+ cs := by
        rw [hstart] at hspace
        exact (List.suffix_append ['<', '?'] cs₁).trans hspace
      obtain ⟨hread, hrest, hnone⟩ := ih (not_mem_of_suffix (hsuffix.trans hopen) hcs) hmore hbefore
      refine ⟨fun t ht => ?_, hrest.trans (hsuffix.trans hopen), hnone⟩
      rcases List.mem_cons.mp ht with rfl | ht
      · exact hvalue (not_mem_of_suffix hopen hcs)
      · exact hread t ht
    · split at h
      · next cs₁ hword =>
        split at h
        · cases h
        · obtain ⟨⟨type, cs₂⟩, htype, hmore⟩ := Option.bind_eq_some_iff.mp h
          have hafter := takeMisc_doctype_eq hmore
          obtain ⟨hdeclarations, hsuffix⟩ := takeDoctype_suffix htype (hsubset type hafter)
          have hopen := hsuffix.trans ((skipWord_suffix hword).trans hspace)
          obtain ⟨hread, hrest, hnone⟩ := ih (not_mem_of_suffix hopen hcs) hmore
            (by intro x hx; cases hx; exact hdeclarations)
          exact ⟨hread, hrest.trans hopen, hnone⟩
      · cases h
        exact ⟨nofun, hspace, hbefore⟩

theorem takeMisc_quotable {fuel : Nat} {cs rest : List Char} {ts : List Token}
    {after : Option Doctype} (hcs : '\r' ∉ cs)
    (h : takeMisc fuel none cs = some (ts, after, rest)) : ∀ type ∈ after, type.id.Quotable := by
  induction fuel generalizing cs ts with
  | zero => cases h
  | succ fuel ih =>
    rw [takeMisc] at h
    have hspace := skipSpace_suffix cs
    split at h
    · next cs₁ hstart =>
      obtain ⟨⟨chars, cs₂⟩, hcomment, h⟩ := Option.bind_eq_some_iff.mp h
      obtain ⟨⟨more, doctype', rest'⟩, hmore, h⟩ := Option.bind_eq_some_iff.mp h
      cases h
      rw [hstart] at hspace
      have hopen := (List.suffix_append ['<', '!', '-', '-'] cs₁).trans hspace
      exact ih (not_mem_of_suffix ((takeComment_suffix hcomment).2.trans hopen) hcs) hmore
    · next cs₁ hstart =>
      obtain ⟨⟨⟨target, value⟩, cs₂⟩, hinstruction, h⟩ := Option.bind_eq_some_iff.mp h
      obtain ⟨⟨more, doctype', rest'⟩, hmore, h⟩ := Option.bind_eq_some_iff.mp h
      cases h
      rw [hstart] at hspace
      have hopen := (List.suffix_append ['<', '?'] cs₁).trans hspace
      exact ih (not_mem_of_suffix ((takeInstruction_suffix hinstruction).1.trans hopen) hcs) hmore
    · split at h
      · next cs₁ hword =>
        split at h
        · cases h
        · obtain ⟨⟨type, cs₂⟩, htype, hmore⟩ := Option.bind_eq_some_iff.mp h
          intro x hx
          rw [takeMisc_doctype_eq hmore] at hx
          cases hx
          exact takeDoctype_quotable
            (not_mem_of_suffix ((skipWord_suffix hword).trans hspace) hcs) htype
      · cases h
        exact nofun

/-- Whether a document has no internal subset. -/
def Contents.withoutSubset (contents : Contents) : Prop :=
  ∀ type ∈ contents.doctype, type.hasSubset = false

theorem Contents.withoutSubset_of_doctype_eq_none {contents : Contents}
    (h : contents.doctype = none) : contents.withoutSubset := by
  rw [withoutSubset, h]
  rintro _ ⟨⟩

/-- The declaration and the document type that are read can be written. -/
theorem readLines_front {cs : List Char} (hcs : '\r' ∉ cs) {contents : Contents}
    (h : readLines cs = some contents) :
    (∀ d ∈ contents.declaration, ∀ e ∈ d.encoding, isEncodingName e = true) ∧
      ∀ type ∈ contents.doctype, type.id.Quotable := by
  rw [readLines] at h
  obtain ⟨⟨prolog, rest⟩, hprolog, h⟩ := Option.bind_eq_some_iff.mp h
  obtain ⟨body, -, h⟩ := Option.bind_eq_some_iff.mp h
  obtain ⟨body', -, h⟩ := Option.bind_eq_some_iff.mp h
  obtain ⟨p, -, h⟩ := Option.bind_eq_some_iff.mp h
  obtain ⟨nodes, -, h⟩ := Option.bind_eq_some_iff.mp h
  cases h
  rw [takeProlog] at hprolog
  obtain ⟨⟨declaration, cs₁⟩, hdeclared, h⟩ := Option.bind_eq_some_iff.mp hprolog
  obtain ⟨⟨misc, doctype, rest'⟩, hmisc, h⟩ := Option.bind_eq_some_iff.mp h
  cases h
  obtain ⟨hname, hsuffix⟩ := takeDeclared_suffix hdeclared
  exact ⟨hname, takeMisc_quotable (not_mem_of_suffix hsuffix hcs) hmisc⟩

/-! Entities, and the attributes that a document type gives. -/

section
variable {P : Token → Prop} {entity : List Char → Option (List Token)}

theorem all_expandPieces (hdata : ∀ ps, P (.data ps))
    (hentity : ∀ name ts, entity name = some ts → ∀ t ∈ ts, P t) {ps : List Piece} {ts : List Token}
    (h : expandPieces entity ps = some ts) : ∀ t ∈ ts, P t := by
  induction ps generalizing ts with
  | nil =>
    cases h
    exact nofun
  | cons p ps ih =>
    cases p with
    | entity name =>
      rw [expandPieces] at h
      obtain ⟨front, hfront, h⟩ := Option.bind_eq_some_iff.mp h
      obtain ⟨back, hback, h⟩ := Option.bind_eq_some_iff.mp h
      cases h
      intro t ht
      rcases List.mem_append.mp ht with ht | ht
      · exact hentity name front hfront t ht
      · exact ih hback t ht
    | _ =>
      rw [expandPieces] at h
      obtain ⟨rest, hrest, rfl⟩ := Option.map_eq_some_iff.mp h
      intro t ht
      rcases List.mem_cons.mp ht with rfl | ht
      · exact hdata _
      · exact ih hrest t ht
      · simp

/-- What holds of all tokens and of those of entities holds when the entities are replaced. -/
theorem all_expandTokens (hdata : ∀ ps, P (.data ps))
    (hentity : ∀ name ts, entity name = some ts → ∀ t ∈ ts, P t) {ts ts' : List Token}
    (h : expandTokens entity ts = some ts') (hts : ∀ t ∈ ts, P t) : ∀ t ∈ ts', P t := by
  induction ts generalizing ts' with
  | nil =>
    cases h
    exact nofun
  | cons t ts ih =>
    have hrest := fun {ts'} h => @ih ts' h fun x hx => hts x (by simp [hx])
    cases t with
    | data ps =>
      have hparts : ∃ front back, (∀ t ∈ front, P t) ∧ expandTokens entity ts = some back ∧
          ts' = front ++ back := by
        rw [expandTokens] at h
        split at h
        · obtain ⟨front, hfront, h⟩ := Option.bind_eq_some_iff.mp h
          obtain ⟨back, hback, h⟩ := Option.bind_eq_some_iff.mp h
          cases h
          exact ⟨front, back, all_expandPieces hdata hentity hfront, hback, rfl⟩
        · obtain ⟨front, hfront, h⟩ := Option.bind_eq_some_iff.mp h
          obtain ⟨back, hback, h⟩ := Option.bind_eq_some_iff.mp h
          cases h
          cases hfront
          exact ⟨_, back, fun t ht => List.mem_singleton.mp ht ▸ hdata ps, hback, rfl⟩
      obtain ⟨front, back, hfront, hback, rfl⟩ := hparts
      intro x hx
      rcases List.mem_append.mp hx with hx | hx
      · exact hfront x hx
      · exact hrest hback x hx
    | _ =>
      rw [expandTokens] at h
      · obtain ⟨back, hback, rfl⟩ := Option.map_eq_some_iff.mp h
        intro x hx
        rcases List.mem_cons.mp hx with rfl | hx
        · exact hts _ (by simp)
        · exact hrest hback x hx
      · simp

end

theorem isRead_entityTokens (d : Declarations) (depth : Nat) {name : List Char} {ts : List Token}
    (h : d.entityTokens depth name = some ts) : ∀ t ∈ ts, t.isRead := by
  induction depth generalizing name ts with
  | zero => cases h
  | succ depth ih =>
    rw [Declarations.entityTokens] at h
    split at h
    · next text _ =>
      obtain ⟨own, hown, h⟩ := Option.bind_eq_some_iff.mp h
      obtain ⟨all, hall, h⟩ := Option.bind_eq_some_iff.mp h
      split at h
      · cases h
        exact all_expandTokens (fun _ => trivial) (fun _ _ h => ih h) hall
          fun t ht => (isRead_tokensWithin hown t ht).1
      · cases h
    · cases h

/-- Whether rules for attributes are such as reading gives: no two are for the same attribute. -/
structure RulesRead (rules : List AttributeRule) : Prop where
  named : ∀ rule ∈ rules, isRawName rule.name = true
  distinct : rules.Pairwise fun a b => a.element = b.element → a.name ≠ b.name

theorem rulesRead_nil : RulesRead [] :=
  ⟨nofun, .nil⟩

theorem RulesRead.addRule {d : Declarations} (h : RulesRead d.rules) {rule : AttributeRule}
    (hname : isRawName rule.name = true) : RulesRead (d.addRule rule).rules := by
  rw [Declarations.addRule]
  split
  · exact h
  · next hnew =>
    rw [Bool.not_eq_true, List.any_eq_false] at hnew
    refine ⟨fun x hx => ?_, List.pairwise_append.mpr ⟨h.distinct, by simp, ?_⟩⟩
    · rcases List.mem_append.mp hx with hx | hx
      · exact h.named x hx
      · rw [List.mem_singleton.mp hx]
        exact hname
    · intro a ha b hb helement hsame
      rw [List.mem_singleton] at hb
      subst hb
      exact hnew a ha (by simp [helement, hsame])

theorem rulesRead_takeRules {element : List Char} {fuel : Nat} {d d' : Declarations}
    {cs rest : List Char} (hd : RulesRead d.rules)
    (h : takeRules element fuel d cs = some (d', rest)) : RulesRead d'.rules := by
  induction fuel generalizing d cs with
  | zero => cases h
  | succ fuel ih =>
    rw [takeRules] at h
    split at h
    · cases h
      exact hd
    · obtain ⟨cs₁, -, h⟩ := Option.bind_eq_some_iff.mp h
      obtain ⟨⟨name, cs₂⟩, hname, h⟩ := Option.bind_eq_some_iff.mp h
      obtain ⟨cs₃, -, h⟩ := Option.bind_eq_some_iff.mp h
      obtain ⟨⟨words, cs₄⟩, -, h⟩ := Option.bind_eq_some_iff.mp h
      obtain ⟨cs₅, -, h⟩ := Option.bind_eq_some_iff.mp h
      have hraw : isRawName name = true := (takeName_eq_some hname).1
      dsimp only at h
      split at h
      · exact ih (hd.addRule hraw) h
      · exact ih (hd.addRule hraw) h
      · split at h
        all_goals
          obtain ⟨cs₆, -, h⟩ := Option.bind_eq_some_iff.mp h
          obtain ⟨⟨raw, cs₇⟩, -, h⟩ := Option.bind_eq_some_iff.mp h
          obtain ⟨value, -, h⟩ := Option.bind_eq_some_iff.mp h
          exact ih (hd.addRule hraw) h

theorem rules_takeEntityDeclaration {d d' : Declarations} {cs rest : List Char}
    (h : takeEntityDeclaration d cs = some (d', rest)) : d'.rules = d.rules := by
  have hentity : ∀ (name : List Char) (body : EntityBody),
      (d.addEntity name body).rules = d.rules := by
    intro name body
    rw [Declarations.addEntity]
    split <;> rfl
  have hparameter : ∀ name text : List Char, (d.addParameter name text).rules = d.rules := by
    intro name text
    rw [Declarations.addParameter]
    split <;> rfl
  rw [takeEntityDeclaration] at h
  obtain ⟨cs₁, -, h⟩ := Option.bind_eq_some_iff.mp h
  split at h
  · obtain ⟨cs₂, -, h⟩ := Option.bind_eq_some_iff.mp h
    obtain ⟨⟨name, cs₃⟩, -, h⟩ := Option.bind_eq_some_iff.mp h
    obtain ⟨cs₄, -, h⟩ := Option.bind_eq_some_iff.mp h
    split at h
    · obtain ⟨text, -, h⟩ := Option.bind_eq_some_iff.mp h
      obtain ⟨rest', -, h⟩ := Option.bind_eq_some_iff.mp h
      cases h
      exact hparameter name text
    · obtain ⟨⟨id, cs₅⟩, -, h⟩ := Option.bind_eq_some_iff.mp h
      obtain ⟨rest', -, h⟩ := Option.bind_eq_some_iff.mp h
      cases h
      exact hparameter name []
  · obtain ⟨⟨name, cs₂⟩, -, h⟩ := Option.bind_eq_some_iff.mp h
    obtain ⟨cs₃, -, h⟩ := Option.bind_eq_some_iff.mp h
    dsimp only at h
    split at h
    · obtain ⟨text, -, h⟩ := Option.bind_eq_some_iff.mp h
      obtain ⟨rest', -, h⟩ := Option.bind_eq_some_iff.mp h
      cases h
      exact hentity name _
    · obtain ⟨⟨id, cs₄⟩, -, h⟩ := Option.bind_eq_some_iff.mp h
      dsimp only at h
      split at h
      · obtain ⟨cs₅, -, h⟩ := Option.bind_eq_some_iff.mp h
        obtain ⟨⟨kind, cs₆⟩, -, h⟩ := Option.bind_eq_some_iff.mp h
        obtain ⟨rest', -, h⟩ := Option.bind_eq_some_iff.mp h
        cases h
        exact hentity name _
      · obtain ⟨rest', -, h⟩ := Option.bind_eq_some_iff.mp h
        cases h
        exact hentity name _

theorem rulesRead_takeDeclaration {d d' : Declarations} {cs rest : List Char}
    (hd : RulesRead d.rules) (h : takeDeclaration d cs = some (d', rest)) : RulesRead d'.rules := by
  rw [takeDeclaration.eq_def] at h
  split at h
  · rwa [rules_takeEntityDeclaration h]
  · obtain ⟨cs₁, -, h⟩ := Option.bind_eq_some_iff.mp h
    obtain ⟨⟨element, cs₂⟩, -, h⟩ := Option.bind_eq_some_iff.mp h
    exact rulesRead_takeRules hd h
  · obtain ⟨x, -, hx⟩ := Option.map_eq_some_iff.mp h
    cases hx
    exact hd
  · obtain ⟨x, -, hx⟩ := Option.map_eq_some_iff.mp h
    cases hx
    exact hd
  · split at h
    · obtain ⟨x, -, hx⟩ := Option.map_eq_some_iff.mp h
      cases hx
      exact hd
    · obtain ⟨x, -, hx⟩ := Option.map_eq_some_iff.mp h
      cases hx
      exact hd
    · cases h

theorem rulesRead_takeSubset {fuel : Nat} {d d' : Declarations} {cs rest : List Char}
    (hd : RulesRead d.rules) (h : takeSubset fuel d cs = some (d', rest)) : RulesRead d'.rules := by
  induction fuel generalizing d cs with
  | zero => cases h
  | succ fuel ih =>
    rw [takeSubset] at h
    split at h
    · cases h
      exact hd
    · obtain ⟨⟨name, cs₁⟩, -, h⟩ := Option.bind_eq_some_iff.mp h
      obtain ⟨cs₂, -, h⟩ := Option.bind_eq_some_iff.mp h
      obtain ⟨text, -, h⟩ := Option.bind_eq_some_iff.mp h
      exact ih hd h
    · obtain ⟨⟨d₁, cs₁⟩, hdeclaration, h⟩ := Option.bind_eq_some_iff.mp h
      exact ih (rulesRead_takeDeclaration hd hdeclaration) h

theorem rulesRead_takeDoctype {cs rest : List Char} {type : Doctype}
    (h : takeDoctype cs = some (type, rest)) : RulesRead type.declarations.rules := by
  rw [takeDoctype] at h
  obtain ⟨cs₁, -, h⟩ := Option.bind_eq_some_iff.mp h
  obtain ⟨⟨name, cs₂⟩, -, h⟩ := Option.bind_eq_some_iff.mp h
  dsimp only at h
  split at h
  · cases h
    exact rulesRead_nil
  · obtain ⟨⟨declarations, cs₃⟩, hsubset, h⟩ := Option.bind_eq_some_iff.mp h
    obtain ⟨rest', -, h⟩ := Option.bind_eq_some_iff.mp h
    cases h
    exact rulesRead_takeSubset rulesRead_nil hsubset
  · cases h

/-- The tokens before the root, and the rules of the document type there. -/
theorem isRead_takeMisc {fuel : Nat} {cs rest : List Char} {ts : List Token}
    {before after : Option Doctype} (h : takeMisc fuel before cs = some (ts, after, rest))
    (hbefore : ∀ type ∈ before, RulesRead type.declarations.rules) :
    (∀ t ∈ ts, t.isRead) ∧ ∀ type ∈ after, RulesRead type.declarations.rules := by
  induction fuel generalizing cs ts before with
  | zero => cases h
  | succ fuel ih =>
    rw [takeMisc] at h
    split at h
    · obtain ⟨⟨chars, cs₂⟩, hcomment, h⟩ := Option.bind_eq_some_iff.mp h
      obtain ⟨⟨more, doctype', rest'⟩, hmore, h⟩ := Option.bind_eq_some_iff.mp h
      cases h
      obtain ⟨hread, hrules⟩ := ih hmore hbefore
      exact ⟨List.forall_mem_cons.mpr ⟨trivial, hread⟩, hrules⟩
    · obtain ⟨⟨⟨target, value⟩, cs₂⟩, hinstruction, h⟩ := Option.bind_eq_some_iff.mp h
      obtain ⟨⟨more, doctype', rest'⟩, hmore, h⟩ := Option.bind_eq_some_iff.mp h
      cases h
      obtain ⟨hread, hrules⟩ := ih hmore hbefore
      exact ⟨List.forall_mem_cons.mpr ⟨takeInstruction_value hinstruction, hread⟩, hrules⟩
    · split at h
      · split at h
        · cases h
        · obtain ⟨⟨type, cs₂⟩, htype, hmore⟩ := Option.bind_eq_some_iff.mp h
          exact ih hmore fun x hx => by cases hx; exact rulesRead_takeDoctype htype
      · cases h
        exact ⟨nofun, hbefore⟩

/-- The nodes are what the tokens of the text give, those of the entities included. -/
theorem readLines_tokens {cs : List Char} (hcs : '\r' ∉ cs) {contents : Contents}
    (h : readLines cs = some contents) :
    ∃ rules ts p, RulesRead rules ∧ (∀ t ∈ ts, t.isRead) ∧
      (contents.withoutSubset → ∀ t ∈ ts, t.isCalm) ∧ Progress.run rules {} ts = some p ∧
      p.finish = some contents.nodes := by
  rw [readLines] at h
  obtain ⟨⟨prolog, rest⟩, hprolog, h⟩ := Option.bind_eq_some_iff.mp h
  obtain ⟨body, hbody, h⟩ := Option.bind_eq_some_iff.mp h
  obtain ⟨body', hexpand, h⟩ := Option.bind_eq_some_iff.mp h
  obtain ⟨p, hrun, h⟩ := Option.bind_eq_some_iff.mp h
  obtain ⟨nodes, hfinish, h⟩ := Option.bind_eq_some_iff.mp h
  cases h
  rw [Declarations.expandDocument, Option.ite_none_right_eq_some] at hexpand
  replace hexpand := hexpand.2
  rw [takeProlog] at hprolog
  obtain ⟨⟨declaration, cs₁⟩, hdeclared, h⟩ := Option.bind_eq_some_iff.mp hprolog
  obtain ⟨⟨misc, doctype, rest'⟩, hmisc, h⟩ := Option.bind_eq_some_iff.mp h
  cases h
  obtain ⟨-, hsuffix⟩ := takeDeclared_suffix hdeclared
  have hcs₁ := not_mem_of_suffix hsuffix hcs
  obtain ⟨hread, hrules⟩ := isRead_takeMisc hmisc (by simp)
  refine ⟨_, misc ++ body', p, ?_, fun t ht => ?_, fun hsubset t ht => ?_, hrun, hfinish⟩
  · cases doctype with
    | none => exact rulesRead_nil
    | some type => exact hrules type rfl
  · rcases List.mem_append.mp ht with ht | ht
    · exact hread t ht
    · exact all_expandTokens (fun _ => trivial) (fun _ _ h => isRead_entityTokens _ _ h) hexpand
        (fun x hx => (isRead_tokensWithin hbody x hx).1) t ht
  · obtain ⟨hcalm, hsuffix', hnone⟩ := takeMisc_suffix hcs₁ hmisc hsubset (by simp)
    rcases List.mem_append.mp ht with ht | ht
    · exact hcalm t ht
    · -- without declarations there are no entities
      have hdeclarations : (doctype.map (·.declarations)).getD {} = {} := by
        cases doctype with
        | none => rfl
        | some type => exact hnone type rfl
      dsimp only at hexpand
      rw [hdeclarations] at hexpand
      exact all_expandTokens (fun _ => trivial) (fun _ _ h => by cases h) hexpand
        (fun x hx => (isRead_tokensWithin hbody x hx).2 (not_mem_of_suffix hsuffix' hcs₁)) t ht

end Manifest.Xml
