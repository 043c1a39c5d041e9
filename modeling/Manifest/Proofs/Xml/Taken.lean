import Manifest.Proofs.Xml.Front

/-! What a scan takes from the front of a text, it takes whatever stands behind. A scan that looks one
character ahead needs the same character there; a tag, a comment, an instruction and verbatim text show
their end themselves. -/

set_option autoImplicit false

namespace Manifest.Xml

/-- Behind a front the same character comes next, if it does so where the front is empty. -/
theorem head?_append_congr {front back rest : List Char} (h : front = [] → back.head? = rest.head?) :
    (front ++ back).head? = (front ++ rest).head? := by
  cases front with
  | nil => exact h rfl
  | cons c front => rfl

/-- Whether a scan takes a front from every text that goes on behind it with the same character. -/
def TakesAhead {α : Type} (take : List Char → Option α) (result : List Char → α)
    (front rest : List Char) : Prop :=
  ∀ back, back.head? = rest.head? → take (front ++ back) = some (result back)

/-- Whether a scan takes a front from every text that begins with it. -/
def Takes {α : Type} (take : List Char → Option α) (result : List Char → α) (front : List Char) : Prop :=
  ∀ back, take (front ++ back) = some (result back)

section
variable {α β : Type} {take : List Char → Option α} {result : List Char → α} {next : α → Option β}
  {result' : List Char → β} {front front' rest : List Char}

/-- One scan after another. -/
theorem TakesAhead.bind (h : TakesAhead take result front (front' ++ rest)) (hne : front' ≠ [])
    (h' : Takes (fun cs => next (result cs)) result' front') :
    Takes (fun cs => (take cs).bind next) result' (front ++ front') := by
  intro back
  have hnext : (front' ++ back).head? = (front' ++ rest).head? :=
    head?_append_congr fun hnil => absurd hnil hne
  show (take (front ++ front' ++ back)).bind next = some (result' back)
  rw [List.append_assoc, h _ hnext]
  exact h' back

end

theorem not_mem_append {c : Char} {front back : List Char} (hfront : c ∉ front) (hback : c ∉ back) :
    c ∉ front ++ back :=
  fun h => (List.mem_append.mp h).elim hfront hback

theorem isRawNameChar_ne_bracket {c : Char} (h : isRawNameChar c = true) : c ≠ '<' := by
  rintro rfl
  exact absurd h (by decide)

theorem isSpace_ne_bracket {c : Char} (h : isSpace c = true) : c ≠ '<' := by
  rintro rfl
  exact absurd h (by decide)

/-! White space, names and values. -/

theorem skipSpace_taken (cs : List Char) : ∃ front, cs = front ++ skipSpace cs ∧ '<' ∉ front ∧
    ∀ back, back.head? = (skipSpace cs).head? → skipSpace (front ++ back) = back := by
  refine ⟨cs.takeWhile isSpace, List.takeWhile_append_dropWhile.symm, fun h => ?_, fun back h => ?_⟩
  · exact isSpace_ne_bracket (List.mem_takeWhile_imp h) rfl
  · rw [skipSpace, List.dropWhile_append_of_pos fun c hc => List.mem_takeWhile_imp hc, ← skipSpace]
    exact skipSpace_eq_self (h ▸ head?_skipSpace cs)

theorem skipSpaces1_taken {cs rest : List Char} (h : skipSpaces1 cs = some rest) :
    ∃ front, front ≠ [] ∧ cs = front ++ rest ∧ '<' ∉ front ∧ TakesAhead skipSpaces1 id front rest := by
  cases cs with
  | nil => cases h
  | cons c cs =>
    rw [skipSpaces1] at h
    split at h
    · next hc =>
      cases h
      obtain ⟨front, hsplit, hno, htake⟩ := skipSpace_taken cs
      refine ⟨c :: front, by simp, congrArg _ hsplit, fun hmem => ?_, fun back hback => ?_⟩
      · rcases List.mem_cons.mp hmem with h | h
        · exact isSpace_ne_bracket hc h.symm
        · exact hno h
      · rw [List.cons_append, skipSpaces1, if_pos hc, htake back hback]
        rfl
    · cases h

/-- A name ends at the first character that belongs to none. -/
theorem head?_takeName {cs name rest : List Char} (h : takeName cs = some (name, rest)) :
    ∀ c ∈ rest.head?, isRawNameChar c = false := by
  cases cs with
  | nil => cases h
  | cons c cs =>
    rw [takeName] at h
    split at h
    · cases h
      intro x hx
      have hend := List.head?_dropWhile_not isRawNameChar cs
      rw [Option.mem_def.mp hx] at hend
      simpa using hend
    · cases h

theorem takeName_taken {cs name rest : List Char} (h : takeName cs = some (name, rest)) :
    name ≠ [] ∧ cs = name ++ rest ∧ '<' ∉ name ∧ TakesAhead takeName (name, ·) name rest := by
  obtain ⟨hname, hsplit⟩ := takeName_eq_some h
  obtain ⟨c, tail, hcons, hc, -, hall⟩ := isRawName_cons hname
  refine ⟨by simp [hcons], hsplit, fun hmem => ?_, fun back hback => ?_⟩
  · rw [hcons] at hmem
    rcases List.mem_cons.mp hmem with h | h
    · exact isRawNameChar_ne_bracket hc h.symm
    · exact isRawNameChar_ne_bracket (List.all_eq_true.mp hall _ h) rfl
  · exact takeName_append hname (hback ▸ head?_takeName h)

theorem skipEquals_taken {cs rest : List Char} (h : skipEquals cs = some rest) :
    ∃ front, front ≠ [] ∧ cs = front ++ rest ∧ '<' ∉ front ∧ TakesAhead skipEquals id front rest := by
  obtain ⟨more, hword, rfl⟩ := Option.map_eq_some_iff.mp h
  obtain ⟨front, hsplit, hno, htake⟩ := skipSpace_taken cs
  obtain ⟨front', hsplit', hno', htake'⟩ := skipSpace_taken more
  rw [skipWord_eq_some_iff, hsplit'] at hword
  rw [hword] at hsplit htake
  refine ⟨front ++ '=' :: front', by simp, by simpa using hsplit,
    not_mem_append hno (by simpa using hno'), fun back hback => ?_⟩
  rw [List.append_assoc, List.cons_append, skipEquals, htake ('=' :: (front' ++ back)) rfl]
  simp only [skipWord, beq_self_eq_true, if_true, Option.map_some, htake' back hback, id_eq]

theorem takeQuoted_taken {cs raw rest : List Char} (h : takeQuoted cs = some (raw, rest)) :
    ∃ mark, mark ≠ '<' ∧ cs = mark :: (raw ++ mark :: rest) ∧
      Takes takeQuoted (raw, ·) (mark :: (raw ++ [mark])) := by
  cases cs with
  | nil => cases h
  | cons mark cs =>
    rw [takeQuoted] at h
    split at h
    · next hmark =>
      have hquote : mark = '"' ∨ mark = '\'' := by simpa using hmark
      split at h
      · cases h
      · next c tail hdrop =>
        cases h
        have hc : c = mark := by
          have hhead := List.head?_dropWhile_not (· != mark) cs
          rw [hdrop] at hhead
          simpa using hhead
        have hno : mark ∉ cs.takeWhile (· != mark) := fun hmem => by
          simpa using List.mem_takeWhile_imp hmem
        refine ⟨mark, ?_, ?_, fun back => by simpa using takeQuoted_mark hquote hno back⟩
        · rcases hquote with rfl | rfl <;> decide
        · rw [← hc, ← hdrop, hc, List.takeWhile_append_dropWhile]
    · cases h

/-- Whether a token is character data. -/
def Token.isData : Token → Bool
  | .data _ => true
  | _ => false

/-! Tags. There is no bracket in a tag behind the one that opens it. -/

section
variable {entity : EntityText}

theorem takeAttribute_taken {cs rest : List Char} {a : List Char × List Char}
    (h : takeAttribute entity cs = some (a, rest)) :
    ∃ front, front ≠ [] ∧ cs = front ++ rest ∧ '<' ∉ front ∧
      Takes (takeAttribute entity) (a, ·) front := by
  simp only [takeAttribute, Option.bind_eq_bind, Option.bind_eq_some_iff, Option.pure_def,
    Option.some.injEq] at h
  obtain ⟨⟨name, cs₁⟩, hname, cs₂, hequals, ⟨raw, cs₃⟩, hquoted, value, hvalue, hpair⟩ := h
  cases hpair
  dsimp only at hequals hvalue
  obtain ⟨hne, hsplit, hno, htake⟩ := takeName_taken hname
  obtain ⟨front, hne', hsplit', hno', htake'⟩ := skipEquals_taken hequals
  obtain ⟨mark, hmark, hsplit'', htake''⟩ := takeQuoted_taken hquoted
  have hraw : '<' ∉ raw := by
    intro hmem
    rw [attributeValue, if_pos (by simpa using hmem)] at hvalue
    cases hvalue
  have hquote : cs₂ = mark :: (raw ++ [mark]) ++ cs₃ := by simp [hsplit'']
  rw [hquote] at hsplit' htake'
  rw [hsplit', ← List.append_assoc] at hsplit htake
  refine ⟨name ++ (front ++ mark :: (raw ++ [mark])), by simp [hne], by simpa using hsplit,
    not_mem_append hno (not_mem_append hno' ?_),
    htake.bind (by simp) (htake'.bind (by simp) fun back => ?_)⟩
  · simp [Ne.symm hmark, hraw]
  · simp only [id_eq, htake'' back, hvalue, Option.bind_eq_bind, Option.bind_some, Option.pure_def]

/-- What the attributes of a tag are: none, one at its end, or one in front of others. -/
theorem takeAttributes_cases {fuel : Nat} {cs rest : List Char}
    {attributes : List (List Char × List Char)} {closed : Bool}
    (h : takeAttributes entity fuel cs = some (attributes, closed, rest)) :
    (attributes = [] ∧ cs = tagEnd closed ++ rest) ∨
      ∃ first cs₁ more, attributes = first :: more ∧ takeAttribute entity cs = some (first, cs₁) ∧
        ((more = [] ∧ cs₁ = tagEnd closed ++ rest) ∨
          ∃ fuel' cs₂, fuel = fuel' + 1 ∧ skipSpaces1 cs₁ = some cs₂ ∧
            takeAttributes entity fuel' cs₂ = some (more, closed, rest)) := by
  rw [takeAttributes.eq_def] at h
  split at h
  · cases h
    exact .inl ⟨rfl, rfl⟩
  · cases h
    exact .inl ⟨rfl, rfl⟩
  · cases h
  · next fuel' _ _ =>
    right
    obtain ⟨⟨first, cs₁⟩, hfirst, h⟩ := Option.bind_eq_some_iff.mp h
    dsimp only at h
    split at h
    · cases h
      exact ⟨first, _, [], rfl, hfirst, .inl ⟨rfl, rfl⟩⟩
    · cases h
      exact ⟨first, _, [], rfl, hfirst, .inl ⟨rfl, rfl⟩⟩
    · obtain ⟨cs₂, hspaces, h⟩ := Option.bind_eq_some_iff.mp h
      obtain ⟨⟨more, closed', rest'⟩, hmore, h⟩ := Option.bind_eq_some_iff.mp h
      cases h
      exact ⟨first, cs₁, more, rfl, hfirst, .inr ⟨fuel', cs₂, rfl, hspaces, hmore⟩⟩

/-- Nothing that begins like the end of a tag is an attribute. -/
theorem takeAttribute_ne {cs cs₁ : List Char} {a : List Char × List Char}
    (h : takeAttribute entity cs = some (a, cs₁)) :
    (∀ rest, cs ≠ '>' :: rest) ∧ ∀ rest, cs ≠ '/' :: '>' :: rest := by
  have hbracket : isNameStart '>' = false := by decide
  have hslash : isNameStart '/' = false := by decide
  constructor
  · rintro rest rfl
    simp [takeAttribute, takeName, hbracket] at h
  · rintro rest rfl
    simp [takeAttribute, takeName, hslash] at h

theorem takeAttributes_last {cs rest : List Char} {first : List Char × List Char} {closed : Bool}
    (h : takeAttribute entity cs = some (first, tagEnd closed ++ rest)) (fuel : Nat) :
    takeAttributes entity (fuel + 1) cs = some ([first], closed, rest) := by
  rw [takeAttributes]
  · rw [h]
    cases closed <;> rfl
  · exact (takeAttribute_ne h).1
  · exact (takeAttribute_ne h).2

theorem takeAttributes_more {cs cs₁ cs₂ rest : List Char} {first : List Char × List Char}
    {more : List (List Char × List Char)} {closed : Bool} {fuel : Nat}
    (h : takeAttribute entity cs = some (first, cs₁)) (hspaces : skipSpaces1 cs₁ = some cs₂)
    (hmore : takeAttributes entity fuel cs₂ = some (more, closed, rest)) :
    takeAttributes entity (fuel + 1) cs = some (first :: more, closed, rest) := by
  have hno : (∀ rest, cs₁ ≠ '>' :: rest) ∧ ∀ rest, cs₁ ≠ '/' :: '>' :: rest := by
    constructor <;> rintro rest rfl <;> simp +decide [skipSpaces1] at hspaces
  rw [takeAttributes]
  · rw [h]
    simp only [Option.bind_eq_bind, Option.bind_some]
    split
    · exact absurd rfl (hno.1 _)
    · exact absurd rfl (hno.2 _)
    · rw [hspaces, Option.bind_some, hmore]
      rfl
  · exact (takeAttribute_ne h).1
  · exact (takeAttribute_ne h).2

/-- Each attribute takes a character at least, and one from the fuel. -/
theorem takeAttributes_taken {fuel : Nat} {cs rest : List Char}
    {attributes : List (List Char × List Char)} {closed : Bool}
    (h : takeAttributes entity fuel cs = some (attributes, closed, rest)) :
    ∃ front, attributes.length < front.length ∧ cs = front ++ rest ∧ '<' ∉ front ∧
      ∀ fuel', attributes.length ≤ fuel' →
        Takes (takeAttributes entity fuel') (attributes, closed, ·) front := by
  have hend : 0 < (tagEnd closed).length ∧ '<' ∉ tagEnd closed := by cases closed <;> decide
  induction attributes generalizing fuel cs with
  | nil =>
    rcases takeAttributes_cases h with ⟨-, hsplit⟩ | ⟨_, _, _, hcons, -⟩
    · exact ⟨tagEnd closed, hend.1, hsplit, hend.2, fun fuel' _ =>
        takeAttributes_tagEnd entity fuel' closed⟩
    · cases hcons
  | cons a more ih =>
    rcases takeAttributes_cases h with ⟨hnil, -⟩ | ⟨first, cs₁, more', hcons, hfirst, hrest⟩
    · cases hnil
    · cases hcons
      obtain ⟨front, hne, hsplit, hno, htake⟩ := takeAttribute_taken hfirst
      have hlength := List.length_pos_iff.mpr hne
      rcases hrest with ⟨rfl, hsplit₁⟩ | ⟨fuel₁, cs₂, rfl, hspaces, hmore⟩
      · refine ⟨front ++ tagEnd closed, ?_, ?_, not_mem_append hno hend.2, fun fuel' hfuel back => ?_⟩
        · simp only [List.length_append, List.length_cons, List.length_nil]
          omega
        · rw [hsplit, hsplit₁, List.append_assoc]
        · obtain ⟨fuel', rfl⟩ := Nat.exists_eq_add_of_le' hfuel
          rw [List.append_assoc]
          exact takeAttributes_last (htake _) fuel'
      · obtain ⟨front₁, -, hsplit₁, hno₁, htake₁⟩ := skipSpaces1_taken hspaces
        obtain ⟨front₂, hlength₂, hsplit₂, hno₂, htake₂⟩ := ih hmore
        refine ⟨front ++ (front₁ ++ front₂), ?_, ?_, not_mem_append hno (not_mem_append hno₁ hno₂),
          fun fuel' hfuel back => ?_⟩
        · simp only [List.length_append, List.length_cons]
          omega
        · rw [hsplit, hsplit₁, hsplit₂, List.append_assoc, List.append_assoc]
        · rw [List.length_cons] at hfuel
          obtain ⟨fuel', rfl⟩ : ∃ n, fuel' = n + 1 := ⟨fuel' - 1, by omega⟩
          have hnext : (front₂ ++ back).head? = cs₂.head? := by
            rw [hsplit₂]
            exact head?_append_congr fun hnil => by simp [hnil] at hlength₂
          rw [List.append_assoc, List.append_assoc]
          exact takeAttributes_more (htake _) (htake₁ _ hnext) (htake₂ fuel' (by omega) back)

theorem takeStartTag_taken {cs rest : List Char} {t : Token}
    (h : takeStartTag entity cs = some (t, rest)) :
    t.isData = false ∧ ∃ front, front ≠ [] ∧ cs = front ++ rest ∧ '<' ∉ front ∧
      Takes (takeStartTag entity) (t, ·) front := by
  rw [takeStartTag] at h
  obtain ⟨⟨name, cs₁⟩, hname, h⟩ := Option.bind_eq_some_iff.mp h
  obtain ⟨⟨attributes, closed, rest'⟩, hattributes, hpair⟩ := Option.bind_eq_some_iff.mp h
  cases hpair
  obtain ⟨hne, hsplit, hno, htake⟩ := takeName_taken hname
  obtain ⟨front₁, hsplit₁, hno₁, htake₁⟩ := skipSpace_taken cs₁
  obtain ⟨front₂, hlength, hsplit₂, hno₂, htake₂⟩ := takeAttributes_taken hattributes
  have hne₂ : front₂ ≠ [] := List.ne_nil_of_length_pos (by omega)
  rw [hsplit₂] at hsplit₁ htake₁
  rw [hsplit₁, ← List.append_assoc] at hsplit htake
  refine ⟨rfl, name ++ (front₁ ++ front₂), by simp [hne], by simpa using hsplit,
    not_mem_append hno (not_mem_append hno₁ hno₂), htake.bind (by simp [hne₂]) fun back => ?_⟩
  have hspace := htake₁ (front₂ ++ back) (head?_append_congr fun hnil => absurd hnil hne₂)
  have hfuel : attributes.length ≤ (front₂ ++ back).length := by
    rw [List.length_append]
    omega
  simp only [List.append_assoc, hspace, htake₂ _ hfuel back, Option.bind_eq_bind, Option.bind_some,
    Option.pure_def]

theorem takeEndTag_taken {cs rest : List Char} {t : Token} (h : takeEndTag cs = some (t, rest)) :
    t.isData = false ∧ ∃ front, front ≠ [] ∧ cs = front ++ rest ∧ '<' ∉ front ∧
      Takes takeEndTag (t, ·) front := by
  rw [takeEndTag] at h
  obtain ⟨⟨name, cs₁⟩, hname, h⟩ := Option.bind_eq_some_iff.mp h
  obtain ⟨rest', hword, hpair⟩ := Option.bind_eq_some_iff.mp h
  cases hpair
  obtain ⟨hne, hsplit, hno, htake⟩ := takeName_taken hname
  obtain ⟨front₁, hsplit₁, hno₁, htake₁⟩ := skipSpace_taken cs₁
  rw [skipWord_eq_some_iff.mp hword] at hsplit₁ htake₁
  rw [hsplit₁, ← List.append_assoc] at hsplit htake
  refine ⟨rfl, name ++ (front₁ ++ ['>']), by simp, by simpa using hsplit,
    not_mem_append hno (not_mem_append hno₁ (by decide)), htake.bind (by simp) fun back => ?_⟩
  simp only [List.append_assoc, htake₁ (['>'] ++ back) rfl, skipWord_append, Option.bind_eq_bind,
    Option.bind_some, Option.pure_def]

end

/-! Comments, instructions and verbatim text. They end with a word and hold no other one before it. -/

theorem skipWord_congr {word front rest : List Char} (h : skipWord word (front ++ rest) = none)
    (hlength : word.length ≤ front.length) (back : List Char) : skipWord word (front ++ back) = none := by
  rw [Option.eq_none_iff_forall_ne_some] at h ⊢
  intro more hmore
  rw [skipWord_eq_some_iff] at hmore
  obtain ⟨tail, rfl⟩ : word <+: front :=
    List.prefix_of_prefix_length_le ⟨more, hmore.symm⟩ (List.prefix_append front back) hlength
  exact h (tail ++ rest) (by rw [List.append_assoc, skipWord_append])

theorem splitAtWord_taken {word cs before after : List Char} (hword : word ≠ [])
    (h : splitAtWord word cs = some (before, after)) (back : List Char) :
    splitAtWord word (before ++ (word ++ back)) = some (before, back) := by
  induction cs generalizing before with
  | nil => cases h
  | cons c cs ih =>
    rw [splitAtWord] at h
    cases hskip : skipWord word (c :: cs) with
    | some rest =>
      rw [hskip] at h
      cases h
      obtain ⟨w, ws, rfl⟩ := List.exists_cons_of_ne_nil hword
      rw [List.nil_append, List.cons_append, splitAtWord, ← List.cons_append, skipWord_append]
    | none =>
      rw [hskip] at h
      obtain ⟨⟨front, tail⟩, hsplit, hpair⟩ := Option.map_eq_some_iff.mp h
      cases hpair
      have hnone : skipWord word (c :: (front ++ (word ++ back))) = none := by
        have hfront : c :: cs = c :: (front ++ word) ++ after := by
          rw [splitAtWord_eq_some hsplit, List.cons_append, List.append_assoc]
        have hlength : word.length ≤ (c :: (front ++ word)).length := by
          rw [List.length_cons, List.length_append]
          omega
        simpa using skipWord_congr (hfront ▸ hskip) hlength back
      rw [List.cons_append, splitAtWord, hnone, ih hsplit]
      rfl

theorem takeComment_taken {cs chars rest : List Char} (h : takeComment cs = some (chars, rest)) :
    ∃ front, cs = front ++ rest ∧ ['-', '>'] <:+ front ∧
      Takes takeComment (chars, ·) front := by
  rw [takeComment] at h
  obtain ⟨⟨before, cs₁⟩, hsplit, h⟩ := Option.bind_eq_some_iff.mp h
  obtain ⟨cs₂, hword, h⟩ := Option.bind_eq_some_iff.mp h
  split at h
  · next hchars =>
    cases h
    rw [skipWord_eq_some_iff] at hword
    refine ⟨chars ++ ['-', '-', '>'], ?_, ⟨chars ++ ['-'], by simp⟩, fun back => ?_⟩
    · rw [splitAtWord_eq_some hsplit, hword]
      simp
    · have htake := splitAtWord_taken (by simp) hsplit ('>' :: back)
      have hfront : chars ++ ['-', '-', '>'] ++ back = chars ++ (['-', '-'] ++ '>' :: back) := by simp
      rw [hfront]
      simp only [takeComment, htake, Option.bind_eq_bind, Option.bind_some]
      simp [skipWord, hchars]
  · cases h

theorem takeVerbatim_taken {cs chars rest : List Char} (h : takeVerbatim cs = some (chars, rest)) :
    ∃ front, cs = front ++ rest ∧ [']', '>'] <:+ front ∧
      Takes takeVerbatim (chars, ·) front := by
  rw [takeVerbatim] at h
  obtain ⟨⟨before, cs₁⟩, hsplit, h⟩ := Option.bind_eq_some_iff.mp h
  dsimp only at h
  split at h
  · next hchars =>
    cases h
    refine ⟨chars ++ [']', ']', '>'], ?_, ⟨chars ++ [']'], by simp⟩, fun back => ?_⟩
    · rw [splitAtWord_eq_some hsplit, List.append_assoc]
    · rw [List.append_assoc]
      simp only [takeVerbatim, splitAtWord_taken (by simp) hsplit back, Option.bind_eq_bind,
        Option.bind_some, hchars, if_true, Option.pure_def]
  · cases h

theorem takeInstruction_taken {cs target value rest : List Char}
    (h : takeInstruction cs = some ((target, value), rest)) :
    ∃ front, cs = front ++ rest ∧ ['?', '>'] <:+ front ∧
      Takes takeInstruction ((target, value), ·) front := by
  rw [takeInstruction] at h
  obtain ⟨⟨name, cs₁⟩, hname, h⟩ := Option.bind_eq_some_iff.mp h
  obtain ⟨hne, hsplit, -, htake⟩ := takeName_taken hname
  dsimp only at h
  split at h
  · cases h
  · next hreserved =>
    split at h
    · next hword =>
      cases h
      rw [skipWord_eq_some_iff.mp hword] at hsplit htake
      refine ⟨target ++ ['?', '>'], by simpa using hsplit, List.suffix_append _ _,
        htake.bind (by simp) fun back => ?_⟩
      simp only [hreserved, skipWord_append, Bool.false_eq_true, if_false, Option.pure_def]
    · next hword =>
      obtain ⟨cs₂, hspaces, h⟩ := Option.bind_eq_some_iff.mp h
      obtain ⟨⟨before, cs₃⟩, hend, h⟩ := Option.bind_eq_some_iff.mp h
      dsimp only at h
      split at h
      · next hchars =>
        cases h
        obtain ⟨front, hne', hsplit', -, htake'⟩ := skipSpaces1_taken hspaces
        have hsplit₂ : cs₂ = value ++ ['?', '>'] ++ rest := by simpa using splitAtWord_eq_some hend
        rw [hsplit₂] at hsplit' htake'
        rw [hsplit', ← List.append_assoc] at hsplit htake
        refine ⟨target ++ (front ++ (value ++ ['?', '>'])), by simpa using hsplit,
          ⟨target ++ (front ++ value), by simp⟩, htake.bind (by simp) fun back => ?_⟩
        have hspaces' : skipSpaces1 (front ++ (value ++ ['?', '>']) ++ back) =
            some (value ++ (['?', '>'] ++ back)) := by
          rw [List.append_assoc, htake' _ (head?_append_congr (by simp)), id_eq, List.append_assoc]
        -- white space follows the target, so that it is not the end
        have hnot : skipWord ['?', '>'] (front ++ (value ++ ['?', '>']) ++ back) = none := by
          rw [Option.eq_none_iff_forall_ne_some]
          intro more hmore
          rw [skipWord_eq_some_iff.mp hmore] at hspaces'
          simp +decide [skipSpaces1] at hspaces'
        simp only [hreserved, hnot, hspaces', splitAtWord_taken (by simp) hend back, hchars,
          Option.bind_eq_bind, Option.bind_some, Bool.false_eq_true, if_false, if_true, Option.pure_def]
      · cases h

/-! Tokens. -/

/-- How a piece of markup ends: without another bracket, or by a mark of its kind. -/
def endsMarkup (front : List Char) : Prop :=
  '<' ∉ front ∨ ∃ c ∈ ['-', '?', ']'], [c, '>'] <:+ front

theorem endsMarkup_append {mark : Char} (hmark : mark ∈ ['-', '?', ']']) (opening : List Char)
    {front : List Char} (h : [mark, '>'] <:+ front) : endsMarkup (opening ++ front) :=
  .inr ⟨mark, hmark, h.trans (List.suffix_append opening front)⟩

section
variable {entity : EntityText}

theorem takeStartTag_head {c : Char} {cs rest : List Char} {t : Token}
    (h : takeStartTag entity (c :: cs) = some (t, rest)) : isRawNameChar c = true := by
  rw [takeStartTag] at h
  obtain ⟨⟨name, cs₁⟩, hname, -⟩ := Option.bind_eq_some_iff.mp h
  obtain ⟨hraw, hsplit⟩ := takeName_eq_some hname
  obtain ⟨d, ds, rfl, hd, -, -⟩ := isRawName_cons hraw
  cases hsplit
  exact hd

theorem takeToken_name {c : Char} (hc : isRawNameChar c = true) (cs : List Char) :
    takeToken entity ('<' :: c :: cs) = takeStartTag entity (c :: cs) := by
  rw [takeToken]
  all_goals
    intro tail htail
    simp only [List.cons.injEq] at htail
    rw [htail.1] at hc
    exact absurd hc (by decide)

theorem takeToken_taken {cs rest : List Char} {t : Token}
    (h : takeToken entity ('<' :: cs) = some (t, rest)) :
    t.isData = false ∧ ∃ front, cs = front ++ rest ∧ endsMarkup front ∧
      ∀ back, takeToken entity ('<' :: (front ++ back)) = some (t, back) := by
  rw [takeToken.eq_def] at h
  split at h
  · next cs heq =>
    cases heq
    obtain ⟨⟨chars, rest'⟩, hcomment, hpair⟩ := Option.map_eq_some_iff.mp h
    cases hpair
    obtain ⟨front, hsplit, hend, htake⟩ := takeComment_taken hcomment
    refine ⟨rfl, ['!', '-', '-'] ++ front, by rw [hsplit]; rfl,
      endsMarkup_append (by simp) _ hend, fun back => ?_⟩
    simp only [List.cons_append, List.nil_append, takeToken, htake back, Option.map_some]
  · next cs heq =>
    cases heq
    obtain ⟨⟨chars, rest'⟩, hverbatim, hpair⟩ := Option.map_eq_some_iff.mp h
    cases hpair
    obtain ⟨front, hsplit, hend, htake⟩ := takeVerbatim_taken hverbatim
    refine ⟨rfl, ['!', '[', 'C', 'D', 'A', 'T', 'A', '['] ++ front, by rw [hsplit]; rfl,
      endsMarkup_append (by simp) _ hend, fun back => ?_⟩
    simp only [List.cons_append, List.nil_append, takeToken, htake back, Option.map_some]
  · next cs heq =>
    cases heq
    obtain ⟨⟨⟨target, value⟩, rest'⟩, hinstruction, hpair⟩ := Option.map_eq_some_iff.mp h
    cases hpair
    obtain ⟨front, hsplit, hend, htake⟩ := takeInstruction_taken hinstruction
    refine ⟨rfl, ['?'] ++ front, congrArg _ hsplit, endsMarkup_append (by simp) _ hend, fun back => ?_⟩
    simp only [List.cons_append, List.nil_append, takeToken, htake back, Option.map_some]
  · next cs heq =>
    cases heq
    obtain ⟨hdata, front, -, hsplit, hno, htake⟩ := takeEndTag_taken h
    refine ⟨hdata, '/' :: front, congrArg _ hsplit, .inl (by simpa using hno), fun back => ?_⟩
    rw [List.cons_append, takeToken, htake back]
  · next cs _ _ _ _ heq =>
    cases heq
    obtain ⟨hdata, front, hne, hsplit, hno, htake⟩ := takeStartTag_taken h
    refine ⟨hdata, front, hsplit, .inl hno, fun back => ?_⟩
    obtain ⟨c, tail, rfl⟩ := List.exists_cons_of_ne_nil hne
    rw [List.cons_append, takeToken_name (takeStartTag_head (htake back))]
    exact htake back
  · next heq => exact absurd rfl (heq _)

/-- Character data is taken up to the next bracket. -/
theorem takeData_taken {cs rest : List Char} {t : Token} (h : takeData cs = some (t, rest)) :
    ∃ raw ps, t = .data ps ∧ cs = raw ++ rest ∧ '<' ∉ raw ∧ MarkupAhead rest ∧
      hasWord [']', ']', '>'] raw = false ∧ pieces raw = some ps := by
  rw [takeData] at h
  split at h
  · cases h
  · next hword =>
    obtain ⟨ps, hpieces, hpair⟩ := Option.bind_eq_some_iff.mp h
    cases hpair
    refine ⟨cs.takeWhile (· != '<'), ps, rfl, List.takeWhile_append_dropWhile.symm, fun hmem => ?_,
      fun c hc => ?_, Bool.eq_false_iff.mpr hword, hpieces⟩
    · simpa using List.mem_takeWhile_imp hmem
    · have hend := List.head?_dropWhile_not (· != '<') cs
      rw [Option.mem_def.mp hc] at hend
      simpa using hend

theorem takeToken_data {c : Char} (hc : c ≠ '<') (cs : List Char) :
    takeToken entity (c :: cs) = takeData (c :: cs) := by
  rw [takeToken]
  all_goals
    intro tail htail
    simp only [List.cons.injEq] at htail
    exact hc htail.1

end

end Manifest.Xml
