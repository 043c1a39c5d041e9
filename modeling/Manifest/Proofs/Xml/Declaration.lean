import Manifest.Proofs.Document.Assembled
import Manifest.Proofs.Text.Encoding

/-! The declaration in front of a text, and what it does not depend on. It is made of characters below 128 and
of white space of which only matters where there is some. So it is read alike from a text with other line
ends, and from the bytes of a text taken for characters. -/

set_option autoImplicit false

namespace Manifest.Xml

/-! The parts of a declaration as they are written. -/

theorem eq_append_skipSpace (cs : List Char) :
    ∃ front, (∀ c ∈ front, isSpace c = true) ∧ cs = front ++ skipSpace cs :=
  ⟨cs.takeWhile isSpace, fun c hc => List.all_eq_true.mp List.all_takeWhile c hc,
    (List.takeWhile_append_dropWhile ..).symm⟩

theorem skipSpaces1_eq_some {cs rest : List Char} (h : skipSpaces1 cs = some rest) :
    ∃ front c, (∀ x ∈ front, isSpace x = true) ∧ isSpace c = true ∧ cs = front ++ c :: rest := by
  cases cs with
  | nil => cases h
  | cons c cs =>
    rw [skipSpaces1, Option.ite_none_right_eq_some, Option.some.injEq] at h
    obtain ⟨hc, rfl⟩ := h
    obtain ⟨front, hfront, hcs⟩ := eq_append_skipSpace cs
    have hall : ∀ x ∈ c :: front, isSpace x = true := List.forall_mem_cons.mpr ⟨hc, hfront⟩
    rcases List.eq_nil_or_concat (c :: front) with hnil | ⟨most, last, hlast⟩
    · cases hnil
    · rw [hlast] at hall
      refine ⟨most, last, fun x hx => hall x (by simp [hx]), hall last (by simp), ?_⟩
      calc c :: cs = c :: front ++ skipSpace cs := congrArg (c :: ·) hcs
        _ = most ++ last :: skipSpace cs := by rw [hlast, List.concat_append]

theorem skipEquals_eq_some {cs rest : List Char} (h : skipEquals cs = some rest) :
    ∃ gap gap', (∀ c ∈ gap, isSpace c = true) ∧ (∀ c ∈ gap', isSpace c = true) ∧
      cs = gap ++ '=' :: (gap' ++ rest) := by
  obtain ⟨more, hword, rfl⟩ := Option.map_eq_some_iff.mp h
  rw [skipWord_eq_some_iff] at hword
  obtain ⟨gap, hgap, hcs⟩ := eq_append_skipSpace cs
  obtain ⟨gap', hgap', hmore⟩ := eq_append_skipSpace more
  exact ⟨gap, gap', hgap, hgap', by rw [← hmore, hcs, hword]; rfl⟩

theorem takeQuoted_eq_some {cs value rest : List Char} (h : takeQuoted cs = some (value, rest)) :
    ∃ mark, (mark = '"' ∨ mark = '\'') ∧ cs = mark :: (value ++ mark :: rest) := by
  cases cs with
  | nil => cases h
  | cons mark cs =>
    rw [takeQuoted, Option.ite_none_right_eq_some, Bool.or_eq_true, beq_iff_eq, beq_iff_eq] at h
    obtain ⟨hmark, h⟩ := h
    refine ⟨mark, hmark, ?_⟩
    split at h
    · cases h
    · next c tail heq =>
      cases h
      have hc : c = mark := by
        have hhead := List.head?_dropWhile_not (· != mark) cs
        rw [heq] at hhead
        simpa using hhead
      rw [← hc, ← heq, hc, List.takeWhile_append_dropWhile]

theorem takeSetting_eq_some {keyword : String} {cs value rest : List Char}
    (h : takeSetting keyword cs = some (value, rest)) :
    ∃ gap gap' mark, (∀ c ∈ gap, isSpace c = true) ∧ (∀ c ∈ gap', isSpace c = true) ∧
      (mark = '"' ∨ mark = '\'') ∧
      cs = keyword.toList ++ (gap ++ '=' :: (gap' ++ mark :: (value ++ mark :: rest))) := by
  obtain ⟨more, hword, h⟩ := Option.bind_eq_some_iff.mp h
  obtain ⟨quoted, hequals, hquoted⟩ := Option.bind_eq_some_iff.mp h
  obtain ⟨mark, hmark, rfl⟩ := takeQuoted_eq_some hquoted
  obtain ⟨gap, gap', hgap, hgap', rfl⟩ := skipEquals_eq_some hequals
  exact ⟨gap, gap', mark, hgap, hgap', hmark, skipWord_eq_some_iff.mp hword⟩

/-! Texts that look alike to a reader of declarations. -/

/-- Whether a character means the same in any encoding and stands for itself only. -/
def isPlain (c : Char) : Bool :=
  c.toNat < 128 && !isSpace c

/-- That two characters are both white space or both from 128 on, so that one may stand for the other. -/
def SameKind (c d : Char) : Prop :=
  (isSpace c = true ∧ isSpace d = true) ∨ (128 ≤ c.toNat ∧ 128 ≤ d.toNat)

/--
Texts that are equal but for white space and characters from 128 on. Where one has a run of either, the
other one has a run of the same kind.
-/
inductive Blurred : List Char → List Char → Prop where
  | nil : Blurred [] []
  | same {c : Char} {cs ds : List Char} : isPlain c = true → Blurred cs ds → Blurred (c :: cs) (c :: ds)
  | kind {c d : Char} {cs ds : List Char} : SameKind c d → Blurred cs ds → Blurred (c :: cs) (d :: ds)
  | left {c d : Char} {cs ds : List Char} : SameKind c d → Blurred (d :: cs) ds → Blurred (c :: d :: cs) ds
  | right {c d : Char} {cs ds : List Char} : SameKind c d → Blurred cs (d :: ds) → Blurred cs (c :: d :: ds)

theorem isSpace_of_isPlain {c : Char} (h : isPlain c = true) : isSpace c = false := by
  rw [isPlain, Bool.and_eq_true, Bool.not_eq_true'] at h
  exact h.2

theorem low_of_isSpace {c : Char} (h : isSpace c = true) : c.toNat < 128 := by
  simp only [isSpace, Bool.or_eq_true, beq_iff_eq] at h
  rcases h with ((rfl | rfl) | rfl) | rfl <;> decide

theorem SameKind.symm {c d : Char} (h : SameKind c d) : SameKind d c :=
  h.imp And.symm And.symm

theorem SameKind.isPlain_eq_false {c d : Char} (h : SameKind c d) : isPlain c = false ∧ isPlain d = false := by
  rcases h with ⟨hc, hd⟩ | ⟨hc, hd⟩
  · simp [isPlain, hc, hd]
  · simp [isPlain, Nat.not_lt.mpr hc, Nat.not_lt.mpr hd]

theorem SameKind.isSpace_eq {c d : Char} (h : SameKind c d) : isSpace c = isSpace d := by
  rcases h with ⟨hc, hd⟩ | ⟨hc, hd⟩
  · rw [hc, hd]
  · have hhigh : ∀ {c : Char}, 128 ≤ c.toNat → isSpace c = false := fun hc =>
      Bool.eq_false_iff.mpr fun hs => Nat.not_lt.mpr hc (low_of_isSpace hs)
    rw [hhigh hc, hhigh hd]

namespace Blurred

theorem symm {cs ds : List Char} (h : Blurred cs ds) : Blurred ds cs := by
  induction h with
  | nil => exact .nil
  | same hc _ ih => exact .same hc ih
  | kind hk _ ih => exact .kind hk.symm ih
  | left hk _ ih => exact .right hk ih
  | right hk _ ih => exact .left hk ih

theorem eq_nil_iff {cs ds : List Char} (h : Blurred cs ds) : cs = [] ↔ ds = [] := by
  induction h with
  | nil => exact Iff.rfl
  | left _ _ ih => exact iff_of_false (by simp) fun hds => by cases ih.mpr hds
  | right _ _ ih => exact iff_of_false (fun hcs => by cases ih.mp hcs) (by simp)
  | _ => exact iff_of_false (by simp) (by simp)

theorem eq_cons {c : Char} (hc : isPlain c = true) {cs ds : List Char} (h : Blurred (c :: cs) ds) :
    ∃ ds', ds = c :: ds' ∧ Blurred cs ds' := by
  generalize hall : c :: cs = all at h
  induction h generalizing cs with
  | nil => cases hall
  | same _ h _ =>
    cases hall
    exact ⟨_, rfl, h⟩
  | kind hk _ _ =>
    cases hall
    rw [hk.isPlain_eq_false.1] at hc
    cases hc
  | left hk _ _ =>
    cases hall
    rw [hk.isPlain_eq_false.1] at hc
    cases hc
  | right hk _ ih =>
    obtain ⟨ds', hds, -⟩ := ih hall
    cases hds
    rw [hk.isPlain_eq_false.2] at hc
    cases hc

theorem eq_of_plain {cs ds : List Char} (hcs : ∀ c ∈ cs, isPlain c = true) (h : Blurred cs ds) :
    ds = cs := by
  induction cs generalizing ds with
  | nil => exact h.eq_nil_iff.mp rfl
  | cons c cs ih =>
    obtain ⟨hc, hcs⟩ := List.forall_mem_cons.mp hcs
    obtain ⟨ds', rfl, htail⟩ := h.eq_cons hc
    rw [ih hcs htail]

/-- A test that only plain texts pass has the same answer for texts that look alike. -/
theorem test_eq {cs ds : List Char} (h : Blurred cs ds) (test : List Char → Bool)
    (htest : ∀ cs, test cs = true → ∀ c ∈ cs, isPlain c = true) :
    test cs = test ds ∧ (test cs = true → cs = ds) := by
  have hiff : test cs = true ↔ test ds = true := by
    constructor
    · intro hcs
      rwa [h.eq_of_plain (htest cs hcs)]
    · intro hds
      rwa [h.symm.eq_of_plain (htest ds hds)]
  exact ⟨Bool.eq_iff_iff.mpr hiff, fun hcs => (h.eq_of_plain (htest cs hcs)).symm⟩

/-! Scanning texts that look alike. -/

theorem skipSpace {cs ds : List Char} (h : Blurred cs ds) :
    Blurred (Xml.skipSpace cs) (Xml.skipSpace ds) := by
  have hskip : ∀ {c : Char} (cs : List Char), isSpace c = true →
      Xml.skipSpace (c :: cs) = Xml.skipSpace cs :=
    fun cs hc => List.dropWhile_cons_of_pos hc
  induction h with
  | nil => exact .nil
  | same hc h _ =>
    rw [skipSpace_cons (isSpace_of_isPlain hc), skipSpace_cons (isSpace_of_isPlain hc)]
    exact .same hc h
  | @kind c d cs ds hk h ih =>
    cases hc : isSpace c with
    | true =>
      rw [hskip _ hc, hskip _ (hk.isSpace_eq ▸ hc)]
      exact ih
    | false =>
      rw [skipSpace_cons hc, skipSpace_cons (hk.isSpace_eq ▸ hc)]
      exact .kind hk h
  | @left c d cs ds hk h ih =>
    cases hc : isSpace c with
    | true =>
      rw [hskip _ hc]
      exact ih
    | false =>
      rw [skipSpace_cons (hk.isSpace_eq ▸ hc)] at ih
      rw [skipSpace_cons hc]
      exact .left hk ih
  | @right c d cs ds hk h ih =>
    cases hc : isSpace c with
    | true =>
      rw [hskip _ hc]
      exact ih
    | false =>
      rw [skipSpace_cons (hk.isSpace_eq ▸ hc)] at ih
      rw [skipSpace_cons hc]
      exact .right hk ih

theorem any_head? {cs ds : List Char} (h : Blurred cs ds) :
    cs.head?.any isSpace = ds.head?.any isSpace := by
  induction h with
  | nil => rfl
  | same _ _ _ => rfl
  | kind hk _ _ => exact hk.isSpace_eq
  | left hk _ ih => exact hk.isSpace_eq.trans ih
  | right hk _ ih => exact ih.trans hk.isSpace_eq.symm

theorem skipSpaces1 {cs ds : List Char} (h : Blurred cs ds) :
    Option.Rel Blurred (Xml.skipSpaces1 cs) (Xml.skipSpaces1 ds) := by
  have hspaces : ∀ cs, Xml.skipSpaces1 cs =
      if cs.head?.any isSpace then some (Xml.skipSpace cs) else none := by
    intro cs
    cases cs with
    | nil => rfl
    | cons c cs =>
      rw [Xml.skipSpaces1, List.head?_cons, Option.any_some]
      split
      · next hc => exact congrArg some (List.dropWhile_cons_of_pos hc).symm
      · rfl
  rw [hspaces, hspaces, h.any_head?]
  split
  · exact .some h.skipSpace
  · exact .none

/-- What a scan finds in one of two texts that look alike it finds in the other, or it fails on both. -/
theorem rel_of_forward {α : Type} {scan : List Char → Option α} {S : α → α → Prop}
    (hscan : ∀ {cs ds : List Char} {x : α}, Blurred cs ds → scan cs = some x →
      ∃ y, scan ds = some y ∧ S x y) {cs ds : List Char} (h : Blurred cs ds) :
    Option.Rel S (scan cs) (scan ds) := by
  cases hcs : scan cs with
  | some x =>
    obtain ⟨y, hds, hxy⟩ := hscan h hcs
    rw [hds]
    exact .some hxy
  | none =>
    cases hds : scan ds with
    | some y =>
      obtain ⟨x, hcs', -⟩ := hscan h.symm hds
      rw [hcs] at hcs'
      cases hcs'
    | none => exact .none

theorem skipWord {cs ds : List Char} (h : Blurred cs ds) (word : List Char)
    (hword : word.all isPlain = true) :
    Option.Rel Blurred (Xml.skipWord word cs) (Xml.skipWord word ds) := by
  refine rel_of_forward (fun {cs ds rest} h hcs => ?_) h
  rw [skipWord_eq_some_iff] at hcs
  rw [hcs] at h
  clear hcs
  induction word generalizing ds with
  | nil => exact ⟨ds, rfl, h⟩
  | cons w word ih =>
    rw [List.all_cons, Bool.and_eq_true] at hword
    obtain ⟨hw, hword⟩ := hword
    obtain ⟨ds', rfl, htail⟩ := h.eq_cons hw
    obtain ⟨rest', hrest, hmore⟩ := ih hword htail
    exact ⟨rest', by rw [Xml.skipWord, beq_self_eq_true, if_pos rfl, hrest], hmore⟩

/-- Where a plain character ends the front of one text, it ends that of the other. -/
theorem span {mark : Char} (hmark : isPlain mark = true) {cs ds : List Char} (h : Blurred cs ds) :
    Blurred (cs.takeWhile (· != mark)) (ds.takeWhile (· != mark)) ∧
      Blurred (cs.dropWhile (· != mark)) (ds.dropWhile (· != mark)) := by
  have hother : ∀ {c d : Char}, SameKind c d → (c != mark) = true ∧ (d != mark) = true := by
    intro c d hk
    obtain ⟨hc, hd⟩ := hk.isPlain_eq_false
    constructor <;> rw [bne_iff_ne] <;> rintro rfl
    · exact Bool.eq_false_iff.mp hc hmark
    · exact Bool.eq_false_iff.mp hd hmark
  induction h with
  | nil => exact ⟨.nil, .nil⟩
  | @same c cs ds hc h ih =>
    by_cases hm : (c != mark) = true
    · simp only [List.takeWhile_cons, List.dropWhile_cons, hm, if_true]
      exact ⟨.same hc ih.1, ih.2⟩
    · simp only [List.takeWhile_cons, List.dropWhile_cons, hm]
      exact ⟨.nil, .same hc h⟩
  | kind hk _ ih =>
    obtain ⟨hc, hd⟩ := hother hk
    simp only [List.takeWhile_cons, List.dropWhile_cons, hc, hd, if_true]
    exact ⟨.kind hk ih.1, ih.2⟩
  | left hk _ ih =>
    obtain ⟨hc, hd⟩ := hother hk
    simp only [List.takeWhile_cons, List.dropWhile_cons, hc, hd, if_true] at ih ⊢
    exact ⟨.left hk ih.1, ih.2⟩
  | right hk _ ih =>
    obtain ⟨hc, hd⟩ := hother hk
    simp only [List.takeWhile_cons, List.dropWhile_cons, hc, hd, if_true] at ih ⊢
    exact ⟨.right hk ih.1, ih.2⟩

theorem takeQuoted {cs ds : List Char} (h : Blurred cs ds) :
    Option.Rel (fun x y => Blurred x.1 y.1 ∧ Blurred x.2 y.2) (Xml.takeQuoted cs) (Xml.takeQuoted ds) := by
  refine rel_of_forward (fun {cs ds x} h hcs => ?_) h
  cases cs with
  | nil => cases hcs
  | cons mark cs =>
    rw [Xml.takeQuoted, Option.ite_none_right_eq_some] at hcs
    obtain ⟨hmark, hcs⟩ := hcs
    have hplain : isPlain mark = true := by
      rw [Bool.or_eq_true, beq_iff_eq, beq_iff_eq] at hmark
      rcases hmark with rfl | rfl <;> decide
    obtain ⟨ds', rfl, htail⟩ := h.eq_cons hplain
    obtain ⟨htake, hdrop⟩ := htail.span hplain
    rw [Xml.takeQuoted, if_pos hmark]
    split at hcs
    · cases hcs
    · next c rest heq =>
      cases hcs
      have hc : c = mark := by
        have hhead := List.head?_dropWhile_not (· != mark) cs
        rw [heq] at hhead
        simpa using hhead
      rw [heq, hc] at hdrop
      obtain ⟨rest', hrest, hmore⟩ := hdrop.eq_cons hplain
      rw [hrest]
      exact ⟨_, rfl, htake, hmore⟩

theorem rel_bind {α β : Type} {R : α → α → Prop} {S : β → β → Prop} {x y : Option α}
    {f g : α → Option β} (h : Option.Rel R x y) (hfg : ∀ {a b}, R a b → Option.Rel S (f a) (g b)) :
    Option.Rel S (x.bind f) (y.bind g) := by
  cases h with
  | some hab => exact hfg hab
  | none => exact .none

theorem skipEquals {cs ds : List Char} (h : Blurred cs ds) :
    Option.Rel Blurred (Xml.skipEquals cs) (Xml.skipEquals ds) := by
  rw [Xml.skipEquals, Xml.skipEquals, Option.map_eq_bind, Option.map_eq_bind]
  exact rel_bind (h.skipSpace.skipWord _ (by decide)) fun hmore => .some hmore.skipSpace

theorem takeSetting {cs ds : List Char} (h : Blurred cs ds) (keyword : String)
    (hkeyword : keyword.toList.all isPlain = true) :
    Option.Rel (fun x y => Blurred x.1 y.1 ∧ Blurred x.2 y.2) (Xml.takeSetting keyword cs)
      (Xml.takeSetting keyword ds) :=
  rel_bind (h.skipWord _ hkeyword) fun hmore =>
    rel_bind hmore.skipEquals fun hquoted => hquoted.takeQuoted

theorem endXmlDeclaration {cs ds : List Char} (h : Blurred cs ds) :
    Option.Rel Blurred (Xml.endXmlDeclaration cs) (Xml.endXmlDeclaration ds) :=
  h.skipSpace.skipWord _ (by decide)

theorem takeStandalone {cs ds : List Char} (h : Blurred cs ds) :
    Option.Rel Blurred (Xml.takeStandalone cs) (Xml.takeStandalone ds) := by
  have hend := h.endXmlDeclaration
  rw [Xml.takeStandalone, Xml.takeStandalone]
  generalize Xml.endXmlDeclaration cs = x, Xml.endXmlDeclaration ds = y at hend ⊢
  cases hend with
  | some hrest => exact .some hrest
  | none =>
    refine rel_bind h.skipSpaces1 fun hmore => rel_bind (hmore.takeSetting _ (by decide)) ?_
    rintro ⟨value, cs⟩ ⟨value', ds⟩ ⟨hvalue, hrest⟩
    have hanswer := hvalue.test_eq (fun v => v == "yes".toList || v == "no".toList) fun v hv => by
      rw [Bool.or_eq_true, beq_iff_eq, beq_iff_eq] at hv
      rcases hv with rfl | rfl <;> exact List.all_eq_true.mp (by decide)
    dsimp only at hanswer ⊢
    rw [hanswer.1]
    split
    · exact hrest.endXmlDeclaration
    · exact .none

end Blurred

theorem isPlain_of_isDeclaredNameChar {c : Char} (h : isDeclaredNameChar c = true) : isPlain c = true := by
  have hn : c.toNat = c.val.toNat := rfl
  have hspace : isSpace c = true → c.toNat ≤ 32 := by
    intro hs
    simp only [isSpace, Bool.or_eq_true, beq_iff_eq] at hs
    rcases hs with ((rfl | rfl) | rfl) | rfl <;> decide
  have hbounds : 33 ≤ c.toNat ∧ c.toNat < 128 := by
    unfold isDeclaredNameChar Char.isAlphanum Char.isAlpha Char.isUpper Char.isLower Char.isDigit at h
    simp only [Bool.or_eq_true, Bool.and_eq_true, decide_eq_true_eq, beq_iff_eq, ge_iff_le,
      UInt32.le_iff_toNat_le] at h
    have hends : 'A'.val.toNat = 65 ∧ 'Z'.val.toNat = 90 ∧ 'a'.val.toNat = 97 ∧ 'z'.val.toNat = 122 ∧
      '0'.val.toNat = 48 ∧ '9'.val.toNat = 57 := by decide
    rcases h with ((((h | h) | h) | rfl) | rfl) | rfl
    · omega
    · omega
    · omega
    all_goals decide
  rw [isPlain, Bool.and_eq_true, Bool.not_eq_true', decide_eq_true_eq]
  exact ⟨hbounds.2, Bool.eq_false_iff.mpr fun hs => by have hle := hspace hs; omega⟩

theorem isPlain_of_isEncodingName {cs : List Char} (h : isEncodingName cs = true) :
    ∀ c ∈ cs, isPlain c = true := by
  have hword := isEncodingWord_of_isEncodingName h
  rw [isEncodingWord, String.toList_ofList] at hword
  exact fun c hc => isPlain_of_isDeclaredNameChar (List.all_eq_true.mp hword c hc)

theorem isPlain_of_isVersion {cs : List Char} (h : isVersion cs = true) : ∀ c ∈ cs, isPlain c = true := by
  rw [isVersion.eq_def] at h
  split at h
  · refine List.forall_mem_cons.mpr ⟨by decide, List.forall_mem_cons.mpr ⟨by decide, fun c hc => ?_⟩⟩
    refine isPlain_of_isDeclaredNameChar ?_
    rw [isDeclaredNameChar, Char.isAlphanum, List.all_eq_true.mp h c hc, Bool.or_true]
    rfl
  · cases h

namespace Blurred

theorem takeXmlDeclaration {cs ds : List Char} (h : Blurred cs ds) :
    Option.Rel (fun x y => x.1 = y.1 ∧ Blurred x.2 y.2) (Xml.takeXmlDeclaration cs)
      (Xml.takeXmlDeclaration ds) := by
  refine rel_bind (h.skipSpace.takeSetting _ (by decide)) ?_
  rintro ⟨version, cs⟩ ⟨version', ds⟩ ⟨hversion, h⟩
  obtain ⟨htest, hsame⟩ := hversion.test_eq isVersion fun _ => isPlain_of_isVersion
  dsimp only
  rw [htest]
  cases hv : isVersion version' with
  | false => exact .none
  | true =>
    obtain rfl := hsame (htest.trans hv)
    have hencoding := rel_bind h.skipSpaces1 fun hmore => hmore.takeSetting "encoding" (by decide)
    simp only [Bool.not_true, Bool.false_eq_true, if_false]
    generalize (Xml.skipSpaces1 cs).bind (Xml.takeSetting "encoding") = x,
      (Xml.skipSpaces1 ds).bind (Xml.takeSetting "encoding") = y at hencoding ⊢
    cases hencoding with
    | none => exact rel_bind h.takeStandalone fun hrest => .some ⟨rfl, hrest⟩
    | @some x y hxy =>
      obtain ⟨hname, hmore⟩ := hxy
      obtain ⟨htest, hsame⟩ := hname.test_eq isEncodingName fun _ => isPlain_of_isEncodingName
      dsimp only
      rw [htest]
      split
      · next hy =>
        rw [hsame (htest.trans hy)]
        exact rel_bind hmore.takeStandalone fun hrest => .some ⟨rfl, hrest⟩
      · exact .none

/-- Texts that look alike have the same declaration. -/
theorem takeDeclared {cs ds : List Char} (h : Blurred cs ds) :
    (Xml.takeDeclared cs).map Prod.fst = (Xml.takeDeclared ds).map Prod.fst := by
  have hopen := rel_bind (h.skipWord "<?xml".toList (by decide)) fun hmore => hmore.skipSpaces1
  rw [Xml.takeDeclared, Xml.takeDeclared]
  generalize (Xml.skipWord "<?xml".toList cs).bind Xml.skipSpaces1 = x,
    (Xml.skipWord "<?xml".toList ds).bind Xml.skipSpaces1 = y at hopen ⊢
  cases hopen with
  | none => rfl
  | @some more more' hmore =>
    dsimp only
    rw [Option.map_map, Option.map_map]
    have hdeclaration := hmore.takeXmlDeclaration
    generalize Xml.takeXmlDeclaration more = x, Xml.takeXmlDeclaration more' = y at hdeclaration ⊢
    cases hdeclaration with
    | none => rfl
    | some hxy => exact congrArg (some ∘ some) hxy.1

end Blurred

/-! Other views of a text. -/

theorem Blurred.self_cons {c : Char} {cs ds : List Char} (h : Blurred cs ds) :
    Blurred (c :: cs) (c :: ds) := by
  by_cases hs : isSpace c = true
  · exact .kind (.inl ⟨hs, hs⟩) h
  · by_cases hc : c.toNat < 128
    · exact .same (by simp [isPlain, hc, hs]) h
    · exact .kind (.inr ⟨by omega, by omega⟩) h

/-- With other line ends, a text looks alike. -/
theorem blurred_unifyLineEnds (cs : List Char) : Blurred cs (Text.unifyLineEnds cs) := by
  have hline : SameKind '\r' '\n' := .inl ⟨by decide, by decide⟩
  fun_induction Text.unifyLineEnds cs with
  | case1 => exact .nil
  | case2 cs ih => exact .left hline ih.self_cons
  | case3 c cs _ ih =>
    split
    · next hc =>
      rw [beq_iff_eq] at hc
      rw [hc]
      exact .kind hline ih
    · exact ih.self_cons

/-- So do the bytes of a text where characters below 128, and no others, are bytes below 128. -/
theorem blurred_byteChars {bytesOf : Char → List UInt8} (ht : Text.Transparent bytesOf) (cs : List Char) :
    Blurred cs (Text.byteChars (cs.flatMap bytesOf)) := by
  have hhigh : ∀ {c : Char} {b : UInt8} {bs : List UInt8} {cs ds : List Char}, 128 ≤ c.toNat →
      (∀ x ∈ b :: bs, 128 ≤ x.toNat) → Blurred cs ds → Blurred (c :: cs) (Text.byteChars (b :: bs) ++ ds) := by
    intro c b bs cs ds hc hbs h
    have hnat : ∀ x : UInt8, (Char.ofNat x.toNat).toNat = x.toNat := fun x => Text.toNat_ofNat_byte x.toNat_lt
    induction bs generalizing b with
    | nil => exact .kind (.inr ⟨hc, by rw [hnat]; exact hbs b List.mem_cons_self⟩) h
    | cons b' bs ih =>
      obtain ⟨hb, hbs⟩ := List.forall_mem_cons.mp hbs
      exact .right (.inr ⟨by rwa [hnat], by rw [hnat]; exact hbs b' List.mem_cons_self⟩) (ih hbs)
  induction cs with
  | nil => exact .nil
  | cons c cs ih =>
    rw [List.flatMap_cons]
    by_cases hc : c.toNat < 128
    · rw [ht.low c hc, List.singleton_append, Text.byteChars, List.map_cons,
        Text.ofNat_toNat_ofNat (by omega)]
      exact ih.self_cons
    · obtain ⟨b, bs, hb, hall⟩ := ht.high c (by omega)
      rw [hb, Text.byteChars, List.map_append]
      exact hhigh (by omega) hall ih

end Manifest.Xml
