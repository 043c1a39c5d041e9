import Manifest.Proofs.Xml.LineEnd
import Manifest.Proofs.Xml.Taken

/-! The tokens of texts side by side. They are those of the one and those of the other, with the
character data between them as one piece; and no token reaches from a text into the end tag behind it. -/

set_option autoImplicit false

namespace Manifest.Xml

/-! Character data side by side. -/

theorem piecesFrom_append {a b : List Char} {qs : List Piece} (hb : pieces b = some qs) :
    ∀ (pending : Option (List Char)) {ps : List Piece}, piecesFrom pending a = some ps →
      piecesFrom pending (a ++ b) = some (ps ++ qs) := by
  induction a with
  | nil =>
    rintro (_ | seen) ps h
    · cases h
      exact hb
    · cases h
  | cons c a ih =>
    rintro (_ | seen) ps h
    · rw [piecesFrom] at h
      rw [List.cons_append, piecesFrom]
      split at h
      · next hc => rw [if_pos hc, ih _ h]
      · next hc =>
        split at h
        · next hchar =>
          obtain ⟨more, hmore, rfl⟩ := Option.map_eq_some_iff.mp h
          rw [if_neg hc, if_pos hchar, ih _ hmore]
          rfl
        · cases h
    · rw [piecesFrom] at h
      rw [List.cons_append, piecesFrom]
      split at h
      · next hc =>
        obtain ⟨piece, hpiece, h⟩ := Option.bind_eq_some_iff.mp h
        obtain ⟨more, hmore, hcons⟩ := Option.bind_eq_some_iff.mp h
        cases hcons
        rw [if_pos hc, hpiece, ih _ hmore]
        rfl
      · next hc => rw [if_neg hc, ih _ h]

theorem pieces_append {a b : List Char} {ps qs : List Piece} (ha : pieces a = some ps)
    (hb : pieces b = some qs) : pieces (a ++ b) = some (ps ++ qs) :=
  piecesFrom_append hb none ha

/-- The end mark of verbatim data comes up between two texts only behind its first character. -/
theorem hasWord_append {a b : List Char} (ha : hasWord [']', ']', '>'] a = false)
    (hb : hasWord [']', ']', '>'] b = false) (hlast : a.getLast? = some ']' → b = []) :
    hasWord [']', ']', '>'] (a ++ b) = false := by
  induction a with
  | nil => exact hb
  | cons c a ih =>
    rw [hasWord_cons, Bool.or_eq_false_iff] at ha
    have hrest : a.getLast? = some ']' → b = [] := fun h => hlast (by simp [List.getLast?_cons, h])
    rw [List.cons_append, hasWord_cons, ih ha.2 hrest, Bool.or_false, Option.isSome_eq_false_iff,
      Option.isNone_iff_eq_none, Option.eq_none_iff_forall_ne_some]
    intro more hmore
    rw [skipWord_eq_some_iff, List.cons_append, List.cons_append, List.cons_append, List.nil_append,
      List.cons.injEq] at hmore
    obtain ⟨rfl, hmore⟩ := hmore
    match a, ha, hlast, hmore with
    | [], _, hlast, hmore => simp [hlast rfl] at hmore
    | [d], _, hlast, hmore =>
      rw [List.singleton_append, List.cons.injEq] at hmore
      simp [hlast (by simp [hmore.1])] at hmore
    | d :: e :: a, ha, _, hmore =>
      simp only [List.cons_append, List.cons.injEq] at hmore
      simp [hmore.1, hmore.2.1, skipWord] at ha

section
variable {entity : EntityText}

/-! Tokens one after another. -/

theorem takeToken_shorter {c : Char} {cs rest : List Char} {t : Token}
    (h : takeToken entity (c :: cs) = some (t, rest)) : rest.length < (c :: cs).length := by
  by_cases hc : c = '<'
  · subst hc
    obtain ⟨-, front, rfl, -, -⟩ := takeToken_taken h
    simp only [List.length_cons, List.length_append]
    omega
  · rw [takeToken_data hc] at h
    obtain ⟨raw, ps, -, hsplit, -, hrest, -, -⟩ := takeData_taken h
    cases raw with
    | nil =>
      rw [List.nil_append] at hsplit
      exact absurd (hrest c (by rw [← hsplit]; rfl)) hc
    | cons d raw =>
      rw [hsplit, List.length_append, List.length_cons]
      omega

theorem lexes_of_tokensWithin {fuel : Nat} {cs : List Char} {ts : List Token}
    (h : tokensWithin entity fuel cs = some ts) : Lexes entity cs ts := by
  induction fuel generalizing cs ts with
  | zero =>
    cases cs with
    | nil =>
      cases h
      exact lexes_nil
    | cons c cs => cases h
  | succ fuel ih =>
    cases cs with
    | nil =>
      cases h
      exact lexes_nil
    | cons c cs =>
      simp only [tokensWithin, Option.bind_eq_bind, Option.bind_eq_some_iff, Option.pure_def,
        Option.some.injEq] at h
      obtain ⟨⟨t, rest⟩, htoken, more, hmore, rfl⟩ := h
      exact (ih hmore).cons htoken (takeToken_shorter htoken)

/-- A text has the tokens that the reader scans from it, which does not run out of fuel. -/
theorem lexes_iff {cs : List Char} {ts : List Token} :
    Lexes entity cs ts ↔ tokens entity cs = some ts :=
  ⟨Lexes.tokens, lexes_of_tokensWithin⟩

theorem Lexes.unique {cs : List Char} {ts us : List Token} (ht : Lexes entity cs ts)
    (hu : Lexes entity cs us) : ts = us :=
  Option.some.inj (ht.tokens.symm.trans hu.tokens)

/-- A text that is not empty begins with its first token. -/
theorem Lexes.uncons {cs : List Char} {ts : List Token} (h : Lexes entity cs ts) (hne : cs ≠ []) :
    ∃ t rest more, takeToken entity cs = some (t, rest) ∧ Lexes entity rest more ∧ ts = t :: more := by
  obtain ⟨c, cs, rfl⟩ := List.exists_cons_of_ne_nil hne
  have hwithin := h.tokens
  rw [Xml.tokens, List.length_cons] at hwithin
  simp only [tokensWithin, Option.bind_eq_bind, Option.bind_eq_some_iff, Option.pure_def,
    Option.some.injEq] at hwithin
  obtain ⟨⟨t, rest⟩, htoken, more, hmore, rfl⟩ := hwithin
  exact ⟨t, rest, more, htoken, lexes_of_tokensWithin hmore, rfl⟩

/--
How a text that has tokens begins: with nothing, with markup, which is read alike whatever follows it, or
with character data up to the next markup.
-/
inductive Begins (entity : EntityText) : List Char → List Token → Prop where
  | done : Begins entity [] []
  | markup {front rest : List Char} {t : Token} {ts : List Token} :
      t.isData = false → endsMarkup front →
      (∀ back, takeToken entity ('<' :: (front ++ back)) = some (t, back)) → Lexes entity rest ts →
      Begins entity ('<' :: (front ++ rest)) (t :: ts)
  | data {raw rest : List Char} {ps : List Piece} {ts : List Token} :
      raw ≠ [] → '<' ∉ raw → hasWord [']', ']', '>'] raw = false → pieces raw = some ps →
      MarkupAhead rest → Lexes entity rest ts → Begins entity (raw ++ rest) (.data ps :: ts)

theorem Lexes.begins {cs : List Char} {ts : List Token} (h : Lexes entity cs ts) :
    Begins entity cs ts := by
  cases cs with
  | nil =>
    rw [h.unique lexes_nil]
    exact .done
  | cons c cs =>
    obtain ⟨t, rest, more, htoken, hmore, rfl⟩ := h.uncons (by simp)
    by_cases hc : c = '<'
    · subst hc
      obtain ⟨hdata, front, rfl, hend, htake⟩ := takeToken_taken htoken
      exact .markup hdata hend htake hmore
    · rw [takeToken_data hc] at htoken
      obtain ⟨raw, ps, rfl, hsplit, hno, hrest, hword, hpieces⟩ := takeData_taken htoken
      rw [hsplit]
      refine .data (fun hnil => ?_) hno hword hpieces hrest hmore
      rw [hnil, List.nil_append] at hsplit
      exact hc (hrest c (by rw [← hsplit]; rfl))

theorem lexes_markup {front rest : List Char} {t : Token} {ts : List Token}
    (h : takeToken entity ('<' :: (front ++ rest)) = some (t, rest)) (hrest : Lexes entity rest ts) :
    Lexes entity ('<' :: (front ++ rest)) (t :: ts) :=
  hrest.cons h (takeToken_shorter h)

theorem lexes_data {raw rest : List Char} {ps : List Piece} {ts : List Token} (hne : raw ≠ [])
    (hno : '<' ∉ raw) (hword : hasWord [']', ']', '>'] raw = false) (hpieces : pieces raw = some ps)
    (hahead : MarkupAhead rest) (hrest : Lexes entity rest ts) :
    Lexes entity (raw ++ rest) (.data ps :: ts) := by
  obtain ⟨c, tail, rfl⟩ := List.exists_cons_of_ne_nil hne
  have hc : c ≠ '<' := by
    rintro rfl
    exact hno (by simp)
  have htoken : takeToken entity (c :: (tail ++ rest)) = some (.data ps, rest) := by
    rw [takeToken_data hc]
    exact takeData_raw hno hahead hword hpieces
  exact hrest.cons htoken (takeToken_shorter htoken)

/-! Texts side by side. -/

/-- The tokens of two texts side by side: character data on both sides of the seam is one token. -/
def joinTokens : List Token → List Token → List Token
  | [.data ps], .data qs :: us => .data (ps ++ qs) :: us
  | [], us => us
  | t :: ts, us => t :: joinTokens ts us

theorem joinTokens_cons {t : Token} (ts us : List Token) (h : t.isData = false ∨ ts ≠ []) :
    joinTokens (t :: ts) us = t :: joinTokens ts us := by
  rw [joinTokens]
  rintro ps qs more rfl rfl rfl
  rcases h with h | h
  · cases h
  · exact h rfl

/-- In front of markup the tokens just follow one another. -/
theorem joinTokens_markup (ts : List Token) {t : Token} (h : t.isData = false) (us : List Token) :
    joinTokens ts (t :: us) = ts ++ t :: us := by
  induction ts with
  | nil => rw [joinTokens]; rfl
  | cons u ts ih =>
    rw [joinTokens, ih, List.cons_append]
    rintro ps qs more hcons - -
    cases hcons
    cases h

theorem Lexes.append {a b : List Char} {ts us : List Token} (ha : Lexes entity a ts)
    (hb : Lexes entity b us) (hlast : a.getLast? = some ']' → MarkupAhead b) :
    Lexes entity (a ++ b) (joinTokens ts us) := by
  -- on the tokens of the front text: only its last one can change
  induction ts generalizing a with
  | nil =>
    cases ha.begins
    exact hb
  | cons t ts ih =>
    cases ha.begins with
    | @markup front rest _ _ hdata hend htake hrest =>
      have hlast' : rest.getLast? = some ']' → MarkupAhead b := fun h =>
        hlast (by rw [← List.cons_append, List.getLast?_append, h]; rfl)
      rw [joinTokens_cons ts us (.inl hdata), List.cons_append, List.append_assoc]
      exact lexes_markup (htake _) (ih hrest hlast')
    | @data raw rest ps _ hne hno hword hpieces hahead hrest =>
      have hlast' : rest.getLast? = some ']' → MarkupAhead b := fun h =>
        hlast (by rw [List.getLast?_append, h]; rfl)
      cases rest with
      | cons c rest =>
        have hts : ts ≠ [] := by
          obtain ⟨t, rest', more, -, -, rfl⟩ := hrest.uncons (by simp)
          simp
        rw [joinTokens_cons ts us (.inr hts), List.append_assoc]
        exact lexes_data hne hno hword hpieces hahead (ih hrest hlast')
      | nil =>
        rw [hrest.unique lexes_nil, List.append_nil]
        rw [List.append_nil] at hlast
        cases hb.begins with
        | done =>
          rw [joinTokens, joinTokens]
          · exact lexes_data hne hno hword hpieces nofun lexes_nil
          · exact nofun
        | markup hdata hend htake hmore =>
          rw [joinTokens_markup _ hdata, List.singleton_append]
          exact lexes_data hne hno hword hpieces (by rintro c ⟨⟩; rfl) hb
        | @data raw' rest' qs _ hne' hno' hword' hpieces' hahead' hmore =>
          -- behind a bracket comes markup, so no end mark of verbatim data arises at the seam
          have hseam : hasWord [']', ']', '>'] (raw ++ raw') = false := by
            refine hasWord_append hword hword' fun h => ?_
            cases raw' with
            | nil => rfl
            | cons c tail => exact absurd (hlast h c rfl) fun hc => hno' (by simp [hc])
          rw [joinTokens, ← List.append_assoc]
          exact lexes_data (by simp [hne]) (not_mem_append hno hno') hseam (pieces_append hpieces hpieces')
            hahead' hmore

/-! A text in the element around entries. No markup in it reaches into the end tag behind it. -/

/-- No markup ends within the end tag. -/
theorem eq_nil_of_endsMarkup {cs reached rest : List Char} (hend : endsMarkup (cs ++ reached))
    (h : "</fragment>".toList = reached ++ rest) : reached = [] := by
  rcases hend with hno | ⟨mark, hmark, hsuffix⟩
  · cases reached with
    | nil => rfl
    | cons c reached =>
      obtain rfl : '<' = c := (List.cons.inj h).1
      exact absurd (by simp) hno
  · by_contra hne
    have hmem : ∀ {front back : List Char}, back ≠ [] → (front ++ back).getLast? = some '>' →
        '>' ∈ back := by
      intro front back hne hlast
      rw [List.getLast?_append, List.getLast?_eq_some_getLast hne, Option.some_or, Option.some.injEq]
        at hlast
      exact hlast ▸ List.getLast_mem hne
    by_cases hrest : rest = []
    · rw [hrest, List.append_nil] at h
      have hlast : ['t', '>'] <:+ cs ++ reached :=
        h ▸ (List.IsSuffix.trans (by decide) (List.suffix_append cs "</fragment>".toList))
      have heq := (List.suffix_of_suffix_length_le hsuffix hlast (Nat.le_refl 2)).eq_of_length rfl
      rw [List.cons.injEq] at heq
      rw [heq.1] at hmark
      exact absurd hmark (by decide)
    · -- the end tag has one closing bracket, and that is its last character
      have hcount : (reached ++ rest).count '>' = 1 := by
        rw [← h]
        decide
      have hback : '>' ∈ rest := @hmem reached rest hrest (h ▸ by decide)
      have hfront : '>' ∈ reached := by
        obtain ⟨front, hfront⟩ := hsuffix
        exact hmem hne (by rw [← hfront]; simp)
      have := List.count_pos_iff.mpr hback
      have := List.count_pos_iff.mpr hfront
      rw [List.count_append] at hcount
      omega

/-- No markup reaches from a text into an end tag behind it. -/
theorem endsMarkup_split {front rest cs : List Char} (hend : endsMarkup front)
    (h : front ++ rest = cs ++ "</fragment>".toList) :
    ∃ more, cs = front ++ more ∧ rest = more ++ "</fragment>".toList := by
  rcases List.append_eq_append_iff.mp h with ⟨more, hcs, hrest⟩ | ⟨reached, hfront, hreached⟩
  · exact ⟨more, hcs, hrest⟩
  · obtain rfl := eq_nil_of_endsMarkup (hfront ▸ hend) hreached
    exact ⟨[], by simpa using hfront.symm, by simpa using hreached.symm⟩

theorem lexes_finish : Lexes entity "</fragment>".toList [.endTag "fragment".toList] :=
  @lexes_endTag entity "fragment" [] [] (by decide) lexes_nil

/-- The end tag behind a text is a token of its own. -/
theorem Lexes.exists_of_append {cs : List Char} {ts : List Token}
    (h : Lexes entity (cs ++ "</fragment>".toList) ts) :
    ∃ us, Lexes entity cs us ∧ ts = us ++ [.endTag "fragment".toList] := by
  induction ts generalizing cs with
  | nil =>
    generalize hall : cs ++ "</fragment>".toList = all at h
    cases h.begins
    simp at hall
  | cons t ts ih =>
    cases cs with
    | nil => exact ⟨[], lexes_nil, h.unique lexes_finish⟩
    | cons c cs =>
      generalize hall : c :: cs ++ "</fragment>".toList = all at h
      cases h.begins with
      | @markup front rest _ _ hdata hend htake hrest =>
        obtain ⟨rfl, htail⟩ := List.cons.inj hall
        obtain ⟨more, rfl, rfl⟩ := endsMarkup_split hend htail.symm
        obtain ⟨us, hmore, rfl⟩ := ih hrest
        exact ⟨t :: us, lexes_markup (htake more) hmore, rfl⟩
      | @data raw rest ps _ hne hno hword hpieces hahead hrest =>
        obtain ⟨more, hcs, rfl⟩ := endsMarkup_split (.inl hno) hall.symm
        obtain ⟨us, hmore, rfl⟩ := ih hrest
        have hahead' : MarkupAhead more := by
          cases more with
          | nil => exact nofun
          | cons d more => exact hahead
        exact ⟨.data ps :: us, hcs ▸ lexes_data hne hno hword hpieces hahead' hmore, rfl⟩

/-- A text in the element around entries. -/
def wrapped (cs : List Char) : List Char :=
  "<fragment>".toList ++ (cs ++ "</fragment>".toList)

theorem wrapped_eq (cs : List Char) :
    wrapped cs = "<fragment>".toList ++ (cs ++ "</fragment>".toList) := rfl

theorem takeToken_start (rest : List Char) : takeToken entity ("<fragment>".toList ++ rest) =
    some (.startTag "fragment".toList [] false, rest) := by
  have htake := @takeStartTag_append entity "fragment" [] false rest (by decide) rfl
  exact (takeToken_name (c := 'f') (by decide) _).trans htake

theorem lexes_wrapped {cs : List Char} {ts : List Token} :
    Lexes entity (wrapped cs) ts ↔ ∃ us, Lexes entity cs us ∧
      ts = .startTag "fragment".toList [] false :: (us ++ [.endTag "fragment".toList]) := by
  have hne : "<fragment>".toList ≠ [] := by decide
  constructor
  · intro h
    obtain ⟨t, rest, more, htoken, hmore, rfl⟩ := h.uncons (List.append_ne_nil_of_left_ne_nil hne _)
    rw [wrapped_eq, takeToken_start, Option.some.injEq, Prod.mk.injEq] at htoken
    obtain ⟨rfl, rfl⟩ := htoken
    obtain ⟨us, hus, rfl⟩ := hmore.exists_of_append
    exact ⟨us, hus, rfl⟩
  · rintro ⟨us, hus, rfl⟩
    have hinside := hus.append lexes_finish fun _ => by rintro c ⟨⟩; rfl
    rw [joinTokens_markup _ rfl] at hinside
    refine hinside.cons (takeToken_start _) ?_
    have := List.length_pos_iff.mpr hne
    simp only [wrapped_eq, List.length_append]
    omega

/-- A line feed in front of a text is character data, which the text may go on with. -/
theorem Lexes.of_newline {cs : List Char} {ts : List Token} (h : Lexes entity ('\n' :: cs) ts) :
    ∃ ps us, ts = .data (.literal '\n' :: ps) :: us ∧
      (Lexes entity cs (.data ps :: us) ∨ ps = [] ∧ Lexes entity cs us) := by
  generalize hall : '\n' :: cs = all at h
  cases h.begins with
  | done => cases hall
  | markup hdata hend htake hrest => cases hall
  | @data raw rest ps us hne hno hword hpieces hahead hrest =>
    cases raw with
    | nil => exact absurd rfl hne
    | cons c raw =>
      obtain ⟨rfl, rfl⟩ := List.cons.inj hall
      have hchar : isChar '\n' = true := by decide
      have hamp : ¬('\n' == '&') = true := by decide
      rw [pieces, piecesFrom, if_neg hamp, if_pos hchar] at hpieces
      obtain ⟨ps, hps, rfl⟩ := Option.map_eq_some_iff.mp hpieces
      refine ⟨ps, us, rfl, ?_⟩
      by_cases hraw : raw = []
      · subst hraw
        exact .inr ⟨(Option.some.inj hps).symm, hrest⟩
      · have hword' : hasWord [']', ']', '>'] raw = false := by
          rw [hasWord_cons, Bool.or_eq_false_iff] at hword
          exact hword.2
        exact .inl (lexes_data hraw (fun h => hno (by simp [h])) hword' hps hahead hrest)

end

end Manifest.Xml
