import Manifest.Text.Ranges

/-!
White space of every script, and text without it at the ends.

`strip` removes white space from both ends. Main statements: what is left neither begins nor ends
with white space (`head?_stripList`, `getLast?_stripList`), nothing is left exactly of white space
(`stripList_eq_nil_iff`), and stripping twice is stripping once (`stripList_stripList`).
-/

set_option autoImplicit false

namespace Manifest.Text

/-- Code points of white space: tabs, line ends, separators and spaces. -/
def blanks : Ranges :=
  [(0x9, 0xD), (0x1C, 0x20), (0x85, 0x85), (0xA0, 0xA0), (0x1680, 0x1680), (0x2000, 0x200A),
   (0x2028, 0x2029), (0x202F, 0x202F), (0x205F, 0x205F), (0x3000, 0x3000)]

/-- Whether a character is white space. -/
def isBlank (c : Char) : Bool :=
  blanks.has c

/-- Drops white space from the end. -/
def trimEndList (cs : List Char) : List Char :=
  (cs.reverse.dropWhile isBlank).reverse

/-- Drops white space from both ends. -/
def stripList (cs : List Char) : List Char :=
  trimEndList (cs.dropWhile isBlank)

/-- Text without white space at its ends. -/
def strip (s : String) : String :=
  String.ofList (stripList s.toList)

/-- Text without white space in front. -/
def trimStart (s : String) : String :=
  String.ofList (s.toList.dropWhile isBlank)

/-- Whether text is empty or white space throughout. -/
def isBlankText (s : String) : Bool :=
  s.toList.all isBlank

/-- Text in which the letters A to Z are small. -/
def lowerAscii (s : String) : String :=
  s.map Char.toLower

theorem head?_dropWhile_isBlank (cs : List Char) :
    ∀ c ∈ (cs.dropWhile isBlank).head?, isBlank c = false := by
  intro c hc
  induction cs with
  | nil => simp at hc
  | cons d ds ih =>
    rw [List.dropWhile_cons] at hc
    split at hc
    · exact ih hc
    · next hd =>
      simp only [List.head?_cons, Option.mem_def, Option.some.injEq] at hc
      subst hc
      simpa using hd

theorem dropWhile_eq_self {cs : List Char} (h : ∀ c ∈ cs.head?, isBlank c = false) :
    cs.dropWhile isBlank = cs := by
  cases cs with
  | nil => rfl
  | cons c cs => simp [h c (by simp)]

theorem getLast?_trimEndList (cs : List Char) :
    ∀ c ∈ (trimEndList cs).getLast?, isBlank c = false := by
  intro c hc
  rw [trimEndList, List.getLast?_reverse] at hc
  exact head?_dropWhile_isBlank _ c hc

theorem trimEndList_eq_self {cs : List Char} (h : ∀ c ∈ cs.getLast?, isBlank c = false) :
    trimEndList cs = cs := by
  rw [trimEndList, dropWhile_eq_self, List.reverse_reverse]
  simpa [List.head?_reverse] using h

/-- What is cut from the end is white space. -/
theorem trimEndList_append (cs : List Char) :
    ∃ tail, (∀ c ∈ tail, isBlank c = true) ∧ trimEndList cs ++ tail = cs := by
  refine ⟨(cs.reverse.takeWhile isBlank).reverse, ?_, ?_⟩
  · intro c hc
    rw [List.mem_reverse] at hc
    exact List.all_eq_true.mp (List.all_takeWhile) c hc
  · rw [trimEndList, ← List.reverse_append, List.takeWhile_append_dropWhile, List.reverse_reverse]

theorem head?_trimEndList {cs : List Char} (h : ∀ c ∈ cs.head?, isBlank c = false) :
    ∀ c ∈ (trimEndList cs).head?, isBlank c = false := by
  intro c hc
  obtain ⟨tail, -, htail⟩ := trimEndList_append cs
  apply h
  rw [← htail, List.head?_append]
  simp [Option.mem_def.mp hc]

/-- Stripped text begins with no white space. -/
theorem head?_stripList (cs : List Char) :
    ∀ c ∈ (stripList cs).head?, isBlank c = false :=
  head?_trimEndList (head?_dropWhile_isBlank cs)

/-- Stripped text ends with no white space. -/
theorem getLast?_stripList (cs : List Char) :
    ∀ c ∈ (stripList cs).getLast?, isBlank c = false :=
  getLast?_trimEndList _

/-- Stripping changes nothing that is already stripped. -/
theorem stripList_stripList (cs : List Char) : stripList (stripList cs) = stripList cs := by
  rw [stripList, dropWhile_eq_self (head?_stripList cs), trimEndList_eq_self (getLast?_stripList cs)]

/-- Nothing is left of a text exactly if it is white space throughout. -/
theorem stripList_eq_nil_iff {cs : List Char} : stripList cs = [] ↔ ∀ c ∈ cs, isBlank c = true := by
  constructor
  · intro h
    obtain ⟨tail, htail, happend⟩ := trimEndList_append (cs.dropWhile isBlank)
    rw [stripList] at h
    rw [h, List.nil_append] at happend
    have hdrop : cs.dropWhile isBlank = [] := by
      cases hleft : cs.dropWhile isBlank with
      | nil => rfl
      | cons c rest =>
        have hc := head?_dropWhile_isBlank cs c (by rw [hleft]; rfl)
        rw [htail c (by rw [happend, hleft]; exact List.mem_cons_self)] at hc
        cases hc
    rw [← List.takeWhile_append_dropWhile (p := isBlank) (l := cs), hdrop, List.append_nil]
    exact List.all_eq_true.mp List.all_takeWhile
  · intro h
    induction cs with
    | nil => rfl
    | cons c cs ih =>
      rw [stripList, List.dropWhile_cons_of_pos (h c List.mem_cons_self)]
      exact ih fun x hx => h x (List.mem_cons_of_mem c hx)

theorem isEmpty_strip (s : String) : (strip s).isEmpty = isBlankText s := by
  rw [Bool.eq_iff_iff, String.isEmpty_iff, strip, isBlankText, List.all_eq_true, ← stripList_eq_nil_iff]
  exact ⟨fun h => by simpa using congrArg String.toList h, fun h => by rw [h]⟩
theorem strip_strip (s : String) : strip (strip s) = strip s := by
  simp [strip, stripList_stripList]

end Manifest.Text
