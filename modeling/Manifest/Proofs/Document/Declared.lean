import Manifest.Proofs.Xml.Declaration
import Manifest.Proofs.Xml.Opening

/-! The encoding that the beginning of a text names. It is looked for without reading the declaration; where
there is one, what is found is what the declaration says. -/

set_option autoImplicit false

namespace Manifest

open Xml (Declaration isSpace)

/-! Where the setting of an encoding is looked for. -/

theorem findEncodingSetting_skip {before c : Char} (h : c ≠ 'e' ∨ Text.isWord before = true)
    (hc : c ≠ '>') (cs : List Char) :
    findEncodingSetting before (c :: cs) = findEncodingSetting c cs := by
  have hnone : (if Text.isWord before then none else encodingSetting? (c :: cs)) = none := by
    rcases h with h | h
    · split
      · rfl
      · have hword : Xml.skipWord "encoding".toList (c :: cs) = none := by
          simp [Xml.skipWord, h.symm]
        rw [encodingSetting?, hword]
        rfl
    · rw [if_pos h]
  rw [findEncodingSetting, hnone, if_neg (by simpa using hc)]

/-- Text in which no setting of an encoding begins, and which does not end the search for one. -/
def IsPassed (front : List Char) : Prop :=
  ∀ before cs, ∃ last, findEncodingSetting before (front ++ cs) = findEncodingSetting last cs

theorem IsPassed.append {a b : List Char} (ha : IsPassed a) (hb : IsPassed b) : IsPassed (a ++ b) := by
  intro before cs
  obtain ⟨last, h⟩ := ha before (b ++ cs)
  obtain ⟨last', h'⟩ := hb last cs
  exact ⟨last', by rw [List.append_assoc, h, h']⟩

theorem isPassed_of_not_mem {front : List Char} (h : ∀ c ∈ front, c ≠ 'e' ∧ c ≠ '>') : IsPassed front := by
  intro before cs
  induction front generalizing before with
  | nil => exact ⟨before, rfl⟩
  | cons c front ih =>
    obtain ⟨hc, hfront⟩ := List.forall_mem_cons.mp h
    obtain ⟨last, hlast⟩ := ih hfront c
    exact ⟨last, by rw [List.cons_append, findEncodingSetting_skip (.inl hc.1) hc.2, hlast]⟩

/-- A word with the letter only inside it is passed. -/
theorem isPassed_of_inside {a b : List Char} (ha : ∀ c ∈ a, c ≠ 'e' ∧ c ≠ '>')
    (hb : ∀ c ∈ b, c ≠ 'e' ∧ c ≠ '>') {c : Char} (hc : c ≠ 'e' ∧ c ≠ '>') (hword : Text.isWord c = true) :
    IsPassed (a ++ c :: 'e' :: b) := by
  intro before cs
  obtain ⟨last, h⟩ := isPassed_of_not_mem ha before (c :: 'e' :: (b ++ cs))
  obtain ⟨last', h'⟩ := isPassed_of_not_mem hb 'e' cs
  refine ⟨last', ?_⟩
  rw [List.append_assoc, List.cons_append, List.cons_append, h, findEncodingSetting_skip (.inl hc.1) hc.2,
    findEncodingSetting_skip (.inr hword) (by decide), h']

theorem isPassed_of_isSpace {front : List Char} (h : ∀ c ∈ front, isSpace c = true) : IsPassed front :=
  isPassed_of_not_mem fun c hc => by
    have hs := h c hc
    exact ⟨by rintro rfl; exact absurd hs (by decide), by rintro rfl; exact absurd hs (by decide)⟩

theorem isPassed_of_takeSetting {keyword : String} {cs value rest : List Char}
    (hkeyword : IsPassed keyword.toList) (hvalue : IsPassed value)
    (h : Xml.takeSetting keyword cs = some (value, rest)) : ∃ front, IsPassed front ∧ cs = front ++ rest := by
  obtain ⟨gap, gap', mark, hgap, hgap', hmark, rfl⟩ := Xml.takeSetting_eq_some h
  have hquote : IsPassed [mark] := isPassed_of_not_mem fun c hc => by
    rw [List.mem_singleton.mp hc]
    rcases hmark with rfl | rfl <;> decide
  have hequals : IsPassed ['='] := isPassed_of_not_mem (by simp)
  refine ⟨keyword.toList ++ (gap ++ (['='] ++ (gap' ++ ([mark] ++ (value ++ [mark]))))),
    hkeyword.append ((isPassed_of_isSpace hgap).append (hequals.append ((isPassed_of_isSpace hgap').append
      (hquote.append (hvalue.append hquote))))), ?_⟩
  simp

theorem isPassed_of_isVersion {version : List Char} (h : Xml.isVersion version = true) :
    IsPassed version := by
  rw [Xml.isVersion.eq_def] at h
  split at h
  · next digits =>
    have hdigits : ∀ c ∈ digits, c ≠ 'e' ∧ c ≠ '>' := by
      intro c hc
      have hdigit := List.all_eq_true.mp h c hc
      constructor <;> rintro rfl <;> exact absurd hdigit (by decide)
    exact isPassed_of_not_mem (List.forall_mem_cons.mpr
      ⟨by decide, List.forall_mem_cons.mpr ⟨by decide, hdigits⟩⟩)
  · cases h

/-! The setting of an encoding. -/

theorem dropWhile_isBlank_gap {gap : List Char} (hgap : ∀ c ∈ gap, isSpace c = true) {c : Char}
    (hc : Text.isBlank c = false) (cs : List Char) :
    (gap ++ c :: cs).dropWhile Text.isBlank = c :: cs := by
  rw [List.dropWhile_append_of_pos fun x hx => Xml.Markup.isBlank_of_isSpace (hgap x hx),
    List.dropWhile_cons_of_neg (by rw [hc]; simp)]

theorem encodingSetting?_of_takeSetting {cs name rest : List Char}
    (h : Xml.takeSetting "encoding" cs = some (name, rest)) (hname : Xml.isEncodingName name = true) :
    encodingSetting? cs = some name := by
  obtain ⟨gap, gap', mark, hgap, hgap', hmark, rfl⟩ := Xml.takeSetting_eq_some h
  have hword : name.all isDeclaredNameChar = true := by
    have hw := isEncodingWord_of_isEncodingName hname
    rwa [isEncodingWord, String.toList_ofList] at hw
  have hquote : isDeclaredNameChar mark = false ∧ Text.isBlank mark = false ∧
      (mark == '"' || mark == '\'') = true := by
    rcases hmark with rfl | rfl <;> decide
  have htake : (name ++ mark :: rest).takeWhile isDeclaredNameChar = name := by
    rw [List.takeWhile_append_of_pos (List.all_eq_true.mp hword),
      List.takeWhile_cons_of_neg (by rw [hquote.1]; simp), List.append_nil]
  have hempty : name.isEmpty = false := by
    cases name with
    | nil => cases hname
    | cons c cs => rfl
  have hequals : ∀ more, Xml.skipWord ['='] ('=' :: more) = some more := fun _ => rfl
  rw [encodingSetting?, Xml.skipWord_append]
  simp only [Option.bind_eq_bind, Option.bind_some]
  rw [dropWhile_isBlank_gap hgap (by decide), hequals, Option.bind_some,
    dropWhile_isBlank_gap hgap' hquote.2.1]
  dsimp only
  rw [htake, List.drop_left, hempty, hquote.2.2, List.head?_cons, Option.any_some, hquote.2.2]
  rfl

set_option maxRecDepth 10000 in
/-- Behind white space, a setting is looked for at the beginning of a word. -/
theorem findEncodingSetting_of_spaces {before : Char} {cs rest name : List Char}
    (h : Xml.skipSpaces1 cs = some rest) (hname : encodingSetting? rest = some name) :
    findEncodingSetting before cs = some name := by
  obtain ⟨front, c, hfront, hc, rfl⟩ := Xml.skipSpaces1_eq_some h
  obtain ⟨last, hlast⟩ := isPassed_of_isSpace hfront before (c :: rest)
  have hspace : Text.isWord c = false ∧ c ≠ 'e' ∧ c ≠ '>' := by
    simp only [isSpace, Bool.or_eq_true, beq_iff_eq] at hc
    rcases hc with ((rfl | rfl) | rfl) | rfl <;> decide
  rw [hlast, findEncodingSetting_skip (.inl hspace.2.1) hspace.2.2]
  cases rest with
  | nil => cases hname
  | cons d rest => rw [findEncodingSetting, hspace.1, if_neg (by simp), hname]

set_option maxRecDepth 10000 in
/-- There is none in what may follow the place of one. -/
theorem findEncodingSetting_of_standalone {before : Char} {cs rest : List Char}
    (h : Xml.takeStandalone cs = some rest) : findEncodingSetting before cs = none := by
  -- the end of the declaration ends the search
  have hend : ∀ {before : Char} {cs rest : List Char}, Xml.endXmlDeclaration cs = some rest →
      findEncodingSetting before cs = none := by
    intro before cs rest h
    obtain ⟨front, hfront, hcs⟩ := Xml.eq_append_skipSpace cs
    rw [Xml.endXmlDeclaration, Xml.skipWord_eq_some_iff] at h
    obtain ⟨last, hlast⟩ := isPassed_of_isSpace hfront before (Xml.skipSpace cs)
    rw [hcs, hlast, h]
    rw [List.cons_append, findEncodingSetting_skip (.inl (by decide)) (by decide), List.singleton_append,
      findEncodingSetting, if_neg (by decide)]
    rfl
  rw [Xml.takeStandalone] at h
  split at h
  · next hdone => exact hend hdone
  · obtain ⟨more, hspaces, hmore⟩ := Option.bind_eq_some_iff.mp h
    obtain ⟨⟨value, after⟩, hsetting, hafter⟩ := Option.bind_eq_some_iff.mp hmore
    dsimp only at hafter
    split at hafter
    · next hvalue =>
      have hpassed : IsPassed value := by
        rw [Bool.or_eq_true, beq_iff_eq, beq_iff_eq] at hvalue
        rcases hvalue with rfl | rfl
        · exact @isPassed_of_inside [] ['s'] (by simp) (by simp) 'y' (by decide) (by decide)
        · exact isPassed_of_not_mem (by simp)
      have hkeyword : IsPassed "standalone".toList :=
        @isPassed_of_inside "standalo".toList [] (by simp) (by simp) 'n' (by decide) (by decide)
      obtain ⟨front, c, hfront, hc, rfl⟩ := Xml.skipSpaces1_eq_some hspaces
      obtain ⟨setting, hpass, rfl⟩ := isPassed_of_takeSetting hkeyword hpassed hsetting
      obtain ⟨last, hlast⟩ := ((isPassed_of_isSpace hfront).append ((isPassed_of_isSpace
        (List.forall_mem_singleton.mpr hc)).append hpass)) before after
      rw [List.append_assoc, List.append_assoc, List.singleton_append] at hlast
      rw [hlast]
      exact hend hafter
    · cases hafter

/-- A declaration names the encoding that it is found to name. -/
theorem namedEncoding?_of_declared {text : String} {declaration : Declaration} {rest : List Char}
    (h : Xml.takeDeclared text.toList = some (some declaration, rest)) :
    namedEncoding? text = declaration.encoding.map String.ofList := by
  rw [Xml.takeDeclared] at h
  split at h
  · next more hopen =>
    obtain ⟨⟨d, rest'⟩, htake, hpair⟩ := Option.map_eq_some_iff.mp h
    cases hpair
    obtain ⟨cs₁, hword, hspaces⟩ := Option.bind_eq_some_iff.mp hopen
    obtain ⟨⟨version, cs₂⟩, hversion, htake⟩ := Option.bind_eq_some_iff.mp htake
    dsimp only at htake
    have hfind : namedEncoding? text = (findEncodingSetting 'l' cs₁).map String.ofList := by
      rw [Xml.skipWord_eq_some_iff] at hword
      have hblank : text.toList.dropWhile Text.isBlank = text.toList := by
        rw [hword]
        exact List.dropWhile_cons_of_neg (by decide)
      rw [namedEncoding?, hblank, hword, Xml.skipWord_append, Option.map_eq_bind]
      rfl
    split at htake
    · cases htake
    · next hdigits =>
      rw [Bool.not_eq_true, Bool.not_eq_false'] at hdigits
      -- nothing up to the place of the encoding looks like a setting of it
      obtain ⟨last, hlast⟩ : ∃ last, findEncodingSetting 'l' cs₁ = findEncodingSetting last cs₂ := by
        obtain ⟨front, c, hfront, hc, rfl⟩ := Xml.skipSpaces1_eq_some hspaces
        obtain ⟨gap, hgap, hmore⟩ := Xml.eq_append_skipSpace more
        have hkeyword : IsPassed "version".toList :=
          @isPassed_of_inside [] "rsion".toList (by simp) (by simp) 'v' (by decide) (by decide)
        obtain ⟨setting, hpass, hsetting⟩ :=
          isPassed_of_takeSetting hkeyword (isPassed_of_isVersion hdigits) hversion
        obtain ⟨last, hlast⟩ := ((isPassed_of_isSpace hfront).append ((isPassed_of_isSpace
          (List.forall_mem_singleton.mpr hc)).append ((isPassed_of_isSpace hgap).append hpass))) 'l' cs₂
        refine ⟨last, ?_⟩
        rw [← hlast, hmore, hsetting]
        simp
      rw [hfind, hlast]
      split at htake
      · next encoding cs₃ hencoding =>
        split at htake
        · next hname =>
          obtain ⟨after, -, hpair⟩ := Option.bind_eq_some_iff.mp htake
          cases hpair
          obtain ⟨cs₄, hspaces', hsetting⟩ := Option.bind_eq_some_iff.mp hencoding
          rw [findEncodingSetting_of_spaces hspaces' (encodingSetting?_of_takeSetting hsetting hname)]
        · cases htake
      · obtain ⟨after, hstandalone, hpair⟩ := Option.bind_eq_some_iff.mp htake
        cases hpair
        rw [findEncodingSetting_of_standalone hstandalone]
  · cases h

/-- So does a text that can be read, unless a mark stands in front of its declaration. -/
theorem namedEncoding?_of_contents {text : String} {contents : Xml.Contents} {declaration : Declaration}
    (hread : Xml.readDocument text.toList = some contents)
    (hdeclaration : contents.declaration = some declaration)
    (hmark : text.toList.head? ≠ some Xml.byteOrderMark) :
    namedEncoding? text = declaration.encoding.map String.ofList := by
  obtain ⟨rest, hrest⟩ := Xml.takeDeclared_of_readDocument hread
  have hmap := (Xml.blurred_unifyLineEnds text.toList).takeDeclared
  rw [Xml.dropMark_of_head? hmark, hdeclaration] at hrest
  rw [hrest] at hmap
  obtain ⟨⟨found, rest'⟩, hfound, hpair⟩ := Option.map_eq_some_iff.mp hmap
  obtain rfl : found = some declaration := hpair
  exact namedEncoding?_of_declared hfound

end Manifest
