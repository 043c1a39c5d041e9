import Manifest.Xml.Markup
import Manifest.Xml.Reader
import Mathlib.Data.List.TakeWhile

/-! Scanning what was written. A name is read up to the first character that belongs to none, and
escaped text is read back as it was before it was escaped. -/

set_option autoImplicit false

namespace Manifest.Xml

open Markup (escapeTextChar escapeValueChar escapeText escapeValue)

/-! White space and names. -/

theorem skipSpace_eq_self {cs : List Char} (h : ∀ c ∈ cs.head?, isSpace c = false) :
    skipSpace cs = cs := by
  cases cs with
  | nil => rfl
  | cons c cs => simp [skipSpace, h c rfl]

theorem skipSpace_cons {c : Char} (h : isSpace c = false) (cs : List Char) :
    skipSpace (c :: cs) = c :: cs :=
  skipSpace_eq_self (by simpa using h)

theorem isSpace_of_isRawNameChar {c : Char} (h : isRawNameChar c = true) : isSpace c = false := by
  cases hs : isSpace c with
  | false => rfl
  | true =>
    rw [isRawNameChar, isNameChar_of_isSpace hs, Bool.false_or, beq_iff_eq] at h
    rw [h] at hs
    exact absurd hs (by decide)

theorem isRawNameChar_of_isNameStart {c : Char} (h : isNameStart c = true) :
    isRawNameChar c = true := by
  simp [isRawNameChar, isNameChar, h]

/-- A name begins with a character that is no mark of a tag. -/
theorem isRawName_cons {name : List Char} (h : isRawName name = true) :
    ∃ c cs, name = c :: cs ∧ isRawNameChar c = true ∧ (isNameStart c || c == ':') = true ∧
      cs.all isRawNameChar = true := by
  cases name with
  | nil => cases h
  | cons c cs =>
    rw [isRawName, Bool.and_eq_true] at h
    refine ⟨c, cs, rfl, ?_, h.1, h.2⟩
    rcases Bool.or_eq_true _ _ ▸ h.1 with hc | hc
    · exact isRawNameChar_of_isNameStart hc
    · simp [isRawNameChar, hc]

theorem takeName_append {name rest : List Char} (h : isRawName name = true)
    (hrest : ∀ c ∈ rest.head?, isRawNameChar c = false) :
    takeName (name ++ rest) = some (name, rest) := by
  obtain ⟨c, cs, rfl, -, hstart, hall⟩ := isRawName_cons h
  have hcs : ∀ x ∈ cs, isRawNameChar x = true := List.all_eq_true.mp hall
  rw [List.cons_append, takeName, if_pos hstart, List.takeWhile_append_of_pos hcs,
    List.dropWhile_append_of_pos hcs]
  cases rest with
  | nil => simp
  | cons r rest =>
    have hr := hrest r rfl
    simp [hr]

theorem isRawName_of_isLocalName {name : List Char} (h : isLocalName name = true) :
    isRawName name = true := by
  cases name with
  | nil => cases h
  | cons c cs =>
    rw [isLocalName, Bool.and_eq_true] at h
    rw [isRawName, h.1, Bool.true_or, Bool.true_and, List.all_eq_true]
    intro x hx
    rw [isRawNameChar, List.all_eq_true.mp h.2 x hx, Bool.true_or]

theorem all_isNameChar_of_isLocalName {name : List Char} (h : isLocalName name = true) :
    name.all isNameChar = true := by
  cases name with
  | nil => cases h
  | cons c cs =>
    rw [isLocalName, Bool.and_eq_true] at h
    rw [List.all_cons, h.2, isNameChar, h.1]
    rfl

theorem ne_colon_of_isNameChar {c : Char} (h : isNameChar c = true) : c ≠ ':' := by
  rintro rfl
  exact absurd h (by decide)

/-- Two local names joined by a colon are a name. -/
theorem isRawName_colon {front back : List Char} (hfront : isLocalName front = true)
    (hback : isLocalName back = true) : isRawName (front ++ ':' :: back) = true := by
  have hb := all_isNameChar_of_isLocalName hback
  cases front with
  | nil => cases hfront
  | cons c cs =>
    rw [isLocalName, Bool.and_eq_true] at hfront
    rw [List.cons_append, isRawName, hfront.1, Bool.true_or, Bool.true_and, List.all_append,
      List.all_cons]
    have hall : ∀ xs : List Char, xs.all isNameChar = true → xs.all isRawNameChar = true := by
      intro xs hxs
      rw [List.all_eq_true] at hxs ⊢
      intro x hx
      rw [isRawNameChar, hxs x hx, Bool.true_or]
    rw [hall cs hfront.2, hall back hb]
    rfl

/-! Words that end comments and instructions. -/

theorem skipWord_pair_append (a b c : Char) (cs rest : List Char)
    (h : skipWord [a, b] (c :: cs) = none) (hlast : cs ≠ [] ∨ a ≠ b ∨ c ≠ a) :
    skipWord [a, b] (c :: (cs ++ a :: b :: rest)) = none := by
  by_cases hc : a = c
  · subst hc
    cases cs with
    | nil =>
      have hab : a ≠ b := by
        rcases hlast with hlast | hlast | hlast
        · exact absurd rfl hlast
        · exact hlast
        · exact absurd rfl hlast
      simp [skipWord, Ne.symm hab]
    | cons d ds =>
      simp only [skipWord, beq_self_eq_true, if_true] at h
      by_cases hd : b = d
      · simp [hd] at h
      · simp [skipWord, hd]
  · simp [skipWord, hc]

/-- A mark of two characters is found where it was put, if there is none before. -/
theorem splitAtWord_pair (a b : Char) {cs : List Char} (rest : List Char)
    (h : hasWord [a, b] cs = false) (hlast : a ≠ b ∨ cs.getLast? ≠ some a) :
    splitAtWord [a, b] (cs ++ a :: b :: rest) = some (cs, rest) := by
  induction cs with
  | nil => simp [splitAtWord, skipWord]
  | cons c cs ih =>
    rw [hasWord, splitAtWord] at h
    cases hw : skipWord [a, b] (c :: cs) with
    | some r => simp [hw] at h
    | none =>
      rw [hw] at h
      have hcs : hasWord [a, b] cs = false := by simpa [hasWord] using h
      have hnone : skipWord [a, b] (c :: (cs ++ a :: b :: rest)) = none := by
        apply skipWord_pair_append a b c cs rest hw
        rcases hlast with hlast | hlast
        · exact Or.inr (Or.inl hlast)
        · cases cs with
          | nil =>
            refine Or.inr (Or.inr fun hc => hlast ?_)
            rw [hc]
            rfl
          | cons d ds => exact Or.inl (by simp)
      have hlast' : a ≠ b ∨ cs.getLast? ≠ some a := by
        rcases hlast with hlast | hlast
        · exact Or.inl hlast
        · cases cs with
          | nil => exact Or.inr (by simp)
          | cons d ds => exact Or.inr (by simpa [List.getLast?_cons_cons] using hlast)
      rw [List.cons_append, splitAtWord, hnone]
      simp [ih hcs hlast']

/-! Text and values. -/

/-- What is read of a reference that has been begun. -/
theorem piecesFrom_begun {seen name cs : List Char} (h : ∀ c ∈ name, c ≠ ';') :
    piecesFrom (some seen) (name ++ ';' :: cs) =
      (reference? (seen.reverse ++ name)).bind fun p => (piecesFrom none cs).map (p :: ·) := by
  induction name generalizing seen with
  | nil =>
    rw [List.nil_append, List.append_nil, piecesFrom]
    cases reference? seen.reverse with
    | none => rfl
    | some p => cases piecesFrom none cs <;> rfl
  | cons c name ih =>
    have hc : (c == ';') = false := by simpa using h c (by simp)
    rw [List.cons_append, piecesFrom, hc, if_neg (by simp), ih fun x hx => h x (by simp [hx])]
    simp

/-- A character that was written by a reference is read back. -/
theorem piecesFrom_reference (name : List Char) {c : Char} (cs : List Char)
    (h : ∀ x ∈ name, x ≠ ';') (hname : reference? name = some (.referred c)) :
    piecesFrom none ('&' :: (name ++ ';' :: cs)) = (piecesFrom none cs).map (.referred c :: ·) := by
  rw [piecesFrom, beq_self_eq_true, if_pos rfl, piecesFrom_begun h]
  simp [hname]

/-- How a character of text is read back: by a reference if it was written by one. -/
def textPiece (c : Char) : Piece :=
  if c == '<' || c == '>' || c == '&' || c == '\r' then .referred c else .literal c

theorem piecesFrom_escapeTextChar {c : Char} (h : isChar c = true) (cs : List Char) :
    piecesFrom none (escapeTextChar c ++ cs) = (piecesFrom none cs).map (textPiece c :: ·) := by
  rw [escapeTextChar, textPiece]
  by_cases h1 : c = '<'
  · subst h1
    exact piecesFrom_reference ['l', 't'] cs (by simp) (by decide)
  by_cases h2 : c = '>'
  · subst h2
    exact piecesFrom_reference ['g', 't'] cs (by simp) (by decide)
  by_cases h3 : c = '&'
  · subst h3
    exact piecesFrom_reference ['a', 'm', 'p'] cs (by simp) (by decide)
  by_cases h4 : c = '\r'
  · subst h4
    exact piecesFrom_reference ['#', '1', '3'] cs (by simp) (by decide)
  simp [h1, h2, h3, h4, piecesFrom, h]

/-- How a character of a value is read back. -/
def valuePiece (c : Char) : Piece :=
  if c == '"' || c == '\n' || c == '\t' then .referred c else textPiece c

theorem piecesFrom_escapeValueChar {c : Char} (h : isChar c = true) (cs : List Char) :
    piecesFrom none (escapeValueChar c ++ cs) = (piecesFrom none cs).map (valuePiece c :: ·) := by
  rw [escapeValueChar, valuePiece]
  by_cases h1 : c = '"'
  · subst h1
    exact piecesFrom_reference ['q', 'u', 'o', 't'] cs (by simp) (by decide)
  by_cases h2 : c = '\n'
  · subst h2
    exact piecesFrom_reference ['#', '1', '0'] cs (by simp) (by decide)
  by_cases h3 : c = '\t'
  · subst h3
    exact piecesFrom_reference ['#', '9'] cs (by simp) (by decide)
  simp [h1, h2, h3, piecesFrom_escapeTextChar h]

theorem piecesFrom_flatMap {escape : Char → List Char} {piece : Char → Piece}
    (hescape : ∀ c, isChar c = true → ∀ cs,
      piecesFrom none (escape c ++ cs) = (piecesFrom none cs).map (piece c :: ·))
    {cs : List Char} (h : cs.all isChar = true) :
    pieces (cs.flatMap escape) = some (cs.map piece) := by
  rw [pieces]
  induction cs with
  | nil => rfl
  | cons c cs ih =>
    rw [List.all_cons, Bool.and_eq_true] at h
    rw [List.flatMap_cons, hescape c h.1, ih h.2]
    rfl

theorem pieces_escapeText {s : String} (h : isDocumentText s = true) :
    pieces (escapeText s) = some (s.toList.map textPiece) :=
  piecesFrom_flatMap (fun _ hc cs => piecesFrom_escapeTextChar hc cs) h

theorem pieces_escapeValue {s : String} (h : isDocumentText s = true) :
    pieces (escapeValue s) = some (s.toList.map valuePiece) :=
  piecesFrom_flatMap (fun _ hc cs => piecesFrom_escapeValueChar hc cs) h

theorem isEntity_textPiece (c : Char) : (textPiece c).isEntity = false := by
  rw [textPiece]
  split <;> rfl

theorem pieceText_map_textPiece (cs : List Char) : pieceText (cs.map textPiece) = some cs := by
  induction cs with
  | nil => rfl
  | cons c cs ih =>
    rw [List.map_cons, textPiece]
    split <;> simp [pieceText, ih]

theorem attributeText_map_valuePiece (entity : EntityText) (cs : List Char) :
    attributeText entity (cs.map valuePiece) = some cs := by
  induction cs with
  | nil => rfl
  | cons c cs ih =>
    rw [List.map_cons, valuePiece]
    split
    · simp [attributeText, ih]
    · next hc =>
      rw [textPiece]
      split
      · simp [attributeText, ih]
      · next hc' =>
        -- of the characters that stand for themselves only the blank is white space
        have hs : (if isSpace c = true then ' ' else c) = c := by
          split
          · next hspace =>
            simp only [isSpace, Bool.or_eq_true, beq_iff_eq] at hspace hc hc'
            grind
          · rfl
        simp only [attributeText, ih, Option.map_some, hs]

theorem not_mem_flatMap {escape : Char → List Char} {x : Char}
    (h : ∀ c, x ∉ escape c) (cs : List Char) : x ∉ cs.flatMap escape := by
  rw [List.mem_flatMap]
  rintro ⟨c, -, hx⟩
  exact h c hx

theorem not_mem_escapeTextChar {x : Char} (hx : x = '<' ∨ x = '>' ∨ x = '\r') (c : Char) :
    x ∉ escapeTextChar c := by
  rw [escapeTextChar]
  intro h
  split at h
  · rcases hx with rfl | rfl | rfl <;> revert h <;> decide
  split at h
  · rcases hx with rfl | rfl | rfl <;> revert h <;> decide
  split at h
  · rcases hx with rfl | rfl | rfl <;> revert h <;> decide
  split at h
  · rcases hx with rfl | rfl | rfl <;> revert h <;> decide
  rw [List.mem_singleton] at h
  subst h
  rcases hx with rfl | rfl | rfl <;> simp_all

theorem not_mem_escapeValueChar {x : Char} (hx : x = '<' ∨ x = '"' ∨ x = '\r') (c : Char) :
    x ∉ escapeValueChar c := by
  rw [escapeValueChar]
  intro h
  split at h
  · rcases hx with rfl | rfl | rfl <;> revert h <;> decide
  split at h
  · rcases hx with rfl | rfl | rfl <;> revert h <;> decide
  split at h
  · rcases hx with rfl | rfl | rfl <;> revert h <;> decide
  rcases hx with rfl | rfl | rfl
  · exact not_mem_escapeTextChar (Or.inl rfl) c h
  · rw [escapeTextChar] at h
    split at h
    · revert h; decide
    split at h
    · revert h; decide
    split at h
    · revert h; decide
    split at h
    · revert h; decide
    rw [List.mem_singleton] at h
    subst h
    simp_all
  · exact not_mem_escapeTextChar (Or.inr (Or.inr rfl)) c h

theorem attributeValue_escapeValue (entity : EntityText) {s : String}
    (h : isDocumentText s = true) : attributeValue entity (escapeValue s) = some s.toList := by
  have hlt : (escapeValue s).contains '<' = false := by
    have hno := not_mem_flatMap (not_mem_escapeValueChar (x := '<') (Or.inl rfl)) s.toList
    simpa [escapeValue] using hno
  rw [attributeValue, hlt, if_neg (by simp), pieces_escapeValue h, Option.bind_some,
    attributeText_map_valuePiece]

theorem takeQuoted_append {cs rest : List Char} (h : '"' ∉ cs) :
    takeQuoted ('"' :: (cs ++ '"' :: rest)) = some (cs, rest) := by
  have hall : ∀ c ∈ cs, (c != '"') = true := by
    intro c hc
    rw [bne_iff_ne]
    rintro rfl
    exact h hc
  rw [takeQuoted]
  simp only [beq_self_eq_true, Bool.true_or, if_true]
  rw [List.dropWhile_append_of_pos hall, List.takeWhile_append_of_pos hall]
  simp

end Manifest.Xml
