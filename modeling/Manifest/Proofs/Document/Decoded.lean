import Manifest.Proofs.Document.Stored

/-! A text and its bytes. Bytes of a text in the encoding that its declaration names are read as the text is,
and are taken to be stored in that encoding, unless the bytes look like another one by themselves. For the
text itself the encoding is looked for without reading the declaration, so that an instruction in front may
be taken for one. -/

set_option autoImplicit false

namespace Manifest

open Manifest.Text (Encoding Transparent byteChars commonNames decode_latin1)
open Xml (Blurred Contents)

/--
Whether an encoding is the one of a text by its declaration. It is UTF-8 if that names none, and may be any
of the common ones if there is a declaration that cannot be read.
-/
def IsToldIn (text : String) (e : Encoding) : Prop :=
  e.isCommon = true ∧ ∀ front ∈ Xml.takeDeclared (Text.unifyLineEnds (Xml.dropMark text.toList)),
    ((((front.1.bind (·.encoding)).map String.ofList).getD "UTF-8").toUpper, e) ∈ commonNames

instance (text : String) (e : Encoding) : Decidable (IsToldIn text e) :=
  inferInstanceAs (Decidable (_ ∧ _))

/-- That two readings failed alike, or gave the same document but for the letters of its encoding. -/
def ReadAlike : Except ReadError Document → Except ReadError Document → Prop
  | .ok d, .ok d' =>
    d.nodes = d'.nodes ∧ d.doctype = d'.doctype ∧ d.encoding.toUpper = d'.encoding.toUpper
  | .error e, .error e' => e = e'
  | _, _ => False

/-! What the declaration says. -/

theorem IsToldIn.mem_commonNames {text : String} {e : Encoding} (h : IsToldIn text e) {name : String}
    (hname : declaredEncoding? text = some name) : (name.toUpper, e) ∈ commonNames := by
  rw [declaredEncoding?_eq] at hname
  obtain ⟨declaration, hdeclared, hname⟩ := Option.bind_eq_some_iff.mp hname
  obtain ⟨front, hfront, rfl⟩ := Option.map_eq_some_iff.mp hdeclared
  have htold := h.2 front hfront
  rwa [hname, Option.getD_some] at htold

theorem toUpper_utf8 : "UTF-8".toUpper = "UTF-8" := by
  rw [← String.toList_inj, String.toUpper, String.toList_map, String.toList_ofList]
  decide

theorem IsToldIn.eq_utf8 {text : String} {e : Encoding} (h : IsToldIn text e) {rest : List Char}
    {declaration : Option Xml.Declaration}
    (hdeclared : Xml.takeDeclared (Text.unifyLineEnds (Xml.dropMark text.toList)) = some (declaration, rest))
    (hnone : declaration.bind (·.encoding) = none) : e = .utf8 := by
  have htold := h.2 _ hdeclared
  rw [hnone] at htold
  simp only [Option.map_none, Option.getD_none, toUpper_utf8, commonNames, List.mem_cons, List.not_mem_nil,
    or_false, Prod.mk.injEq] at htold
  rcases htold with ⟨-, he⟩ | ⟨hbad, -⟩ | ⟨hbad, -⟩
  · exact he
  · exact absurd hbad (by decide)
  · exact absurd hbad (by decide)

/-! What the bytes say. -/

theorem toUTF8_of_decode {bytes : ByteArray} {s : String} (h : Encoding.utf8.decode bytes = some s) :
    s.toUTF8 = bytes := by
  rw [Encoding.decode] at h
  simp only [String.fromUTF8?] at h
  split at h
  · cases h
    rfl
  · cases h

theorem detectEncoding_of_mark {s : String} (h : s.toList.head? = some Xml.byteOrderMark) :
    detectEncoding (s.toUTF8.data.toList.take 4) = some .utf8 := by
  obtain ⟨rest, hrest⟩ := List.head?_eq_some_iff.mp h
  have hmark : String.utf8EncodeChar Xml.byteOrderMark = [0xEF, 0xBB, 0xBF] := by decide
  rw [Text.toList_toUTF8, hrest, List.flatMap_cons, hmark]
  rfl

theorem head?_of_encode {e : Encoding} (hcommon : e.isCommon = true) (hother : e ≠ .utf8) {s : String}
    {bytes : ByteArray} (h : e.encode s = some bytes) : s.toList.head? ≠ some Xml.byteOrderMark := by
  intro hmark
  obtain ⟨rest, hrest⟩ := List.head?_eq_some_iff.mp hmark
  have hnone : ∀ limit ≤ 256, (s.toList.mapM (Text.encodeBelow limit)).map Text.ofBytes = none := by
    intro limit hlimit
    have hno : Text.encodeBelow limit Xml.byteOrderMark = none := by
      have hnat : Xml.byteOrderMark.toNat = 65279 := rfl
      rw [Text.encodeBelow, if_neg (by omega)]
    rw [hrest, List.mapM_cons, hno]
    rfl
  cases e with
  | utf8 => exact hother rfl
  | ascii =>
    rw [Encoding.encode, hnone 128 (by decide)] at h
    cases h
  | latin1 =>
    rw [Encoding.encode, hnone 256 (by decide)] at h
    cases h
  | _ => cases hcommon

section
variable {text : String} {e : Encoding} {bytes : ByteArray}

theorem IsToldIn.exists_front (htold : IsToldIn text e) (hother : e ≠ .utf8)
    (henc : e.encode text = some bytes) : ∃ rest, text.toList = '<' :: '?' :: rest := by
  have hopens : Xml.opensDeclaration (Text.unifyLineEnds (Xml.dropMark text.toList)) = true := by
    cases hdeclared : Xml.takeDeclared (Text.unifyLineEnds (Xml.dropMark text.toList)) with
    | none => exact Xml.opensDeclaration_of_takeDeclared hdeclared
    | some x =>
      rw [← Xml.isSome_of_takeDeclared hdeclared]
      cases hx : x.1 with
      | none => exact absurd (htold.eq_utf8 hdeclared (by rw [hx]; rfl)) hother
      | some declaration => rfl
  rw [Xml.opensDeclaration_unifyLineEnds, Xml.dropMark_of_head? (head?_of_encode htold.1 hother henc),
    Xml.opensDeclaration_iff] at hopens
  obtain ⟨c, rest, h, -⟩ := hopens
  exact ⟨_, h⟩

theorem IsToldIn.detectEncoding_eq (htold : IsToldIn text e) (hother : e ≠ .utf8)
    (henc : e.encode text = some bytes) : detectEncoding (bytes.data.toList.take 4) = none := by
  obtain ⟨rest, hrest⟩ := htold.exists_front hother henc
  exact detectEncoding_of_start htold.1 henc ⟨'?', rest, hrest, by decide⟩

/-- A text in whose declaration something is wrong is not read from its bytes either. -/
theorem readDocument_of_bytes (hcommon : e.isCommon = true) (henc : e.encode text = some bytes)
    (hfront : ∃ rest, text.toList = '<' :: '?' :: rest)
    (hdeclared : Xml.takeDeclared (Text.unifyLineEnds text.toList) = none) {s : String}
    (hs : Encoding.utf8.decode bytes = some s) : Xml.readDocument s.toList = none := by
  obtain ⟨bytesOf, ht, hbytes⟩ := e.transparent_of_encode hcommon henc
  obtain ⟨rest, hfront⟩ := hfront
  have htext := Xml.blurred_byteChars ht text.toList
  have hother := Xml.blurred_byteChars Text.transparent_utf8 s.toList
  rw [← Text.toList_toUTF8, toUTF8_of_decode hs, hbytes] at hother
  have hstart : ∃ rest', s.toList = '<' :: rest' := by
    have hview := htext
    rw [hfront] at hview
    obtain ⟨rest', hview, -⟩ := hview.eq_cons (by decide)
    have hback := hother.symm
    rw [hfront, hview] at hback
    obtain ⟨rest'', hs', -⟩ := hback.eq_cons (by decide)
    exact ⟨rest'', hs'⟩
  obtain ⟨rest', hs'⟩ := hstart
  have hmark : s.toList.head? ≠ some Xml.byteOrderMark := by rw [hs']; simp [Xml.byteOrderMark]
  have hnone : Xml.takeDeclared (Text.unifyLineEnds s.toList) = none := by
    have hmap := congrArg (Option.map Prod.fst) hdeclared
    rw [← (Xml.blurred_unifyLineEnds _).takeDeclared, htext.takeDeclared, ← hother.takeDeclared,
      (Xml.blurred_unifyLineEnds _).takeDeclared] at hmap
    simpa using hmap
  cases hread : Xml.readDocument s.toList with
  | none => rfl
  | some contents =>
    obtain ⟨more, hmore⟩ := Xml.takeDeclared_of_readDocument hread
    rw [Xml.dropMark_of_head? hmark, hnone] at hmore
    cases hmore

theorem IsToldIn.decodeStored_eq (htold : IsToldIn text e) (henc : e.encode text = some bytes)
    (hdetect : ∀ x ∈ detectEncoding (bytes.data.toList.take 4), x = .utf8)
    (hnamed : e = .utf8 ∨ declaredEncoding? text ≠ none) : decodeStored bytes = some text := by
  have hback := e.decode_encode htold.1 henc
  cases hfirst : detectEncoding (bytes.data.toList.take 4) with
  | some x =>
    obtain rfl := hdetect x hfirst
    by_cases hutf8 : e = .utf8
    · rw [decodeStored, hfirst, ← hutf8]
      exact hback
    · rw [htold.detectEncoding_eq hutf8 henc] at hfirst
      cases hfirst
  | none =>
    have hmark : text.toList.head? ≠ some Xml.byteOrderMark := by
      intro hmark
      by_cases hutf8 : e = .utf8
      · rw [hutf8] at henc
        cases henc
        rw [detectEncoding_of_mark hmark] at hfirst
        cases hfirst
      · exact head?_of_encode htold.1 hutf8 henc hmark
    obtain ⟨bytesOf, ht, hbytes⟩ := e.transparent_of_encode htold.1 henc
    rw [decodeStored_of_detectEncoding hfirst, hbytes, declaredEncoding?_byteChars ht hmark]
    cases hname : declaredEncoding? text with
    | some name =>
      have hknown := (Encoding.named?_of_common (htold.mem_commonNames hname)).1
      have hbyte : oneByteDeclaration e = true := by
        have hcommon := htold.1
        cases e <;> first | rfl | cases hcommon
      dsimp only
      rw [hknown, Option.filter_some, hbyte]
      exact hback
    | none =>
      obtain rfl := hnamed.resolve_right (not_not_intro hname)
      exact hback

/-- A text of another encoding that names none has a declaration that cannot be read. -/
theorem IsToldIn.takeDeclared_eq_none (htold : IsToldIn text e) (hother : e ≠ .utf8)
    (hname : declaredEncoding? text = none) :
    Xml.takeDeclared (Text.unifyLineEnds (Xml.dropMark text.toList)) = none := by
  cases hdeclared : Xml.takeDeclared (Text.unifyLineEnds (Xml.dropMark text.toList)) with
  | none => rfl
  | some x =>
    refine absurd (htold.eq_utf8 hdeclared ?_) hother
    rw [declaredEncoding?_eq, hdeclared, Option.map_some, Option.bind_some] at hname
    exact Option.map_eq_none_iff.mp hname

/-- The bytes of a text hold what the text holds, unless they look like another encoding by themselves. -/
theorem readStored_of_isToldIn (htold : IsToldIn text e) (henc : e.encode text = some bytes)
    (hdetect : ∀ x ∈ detectEncoding (bytes.data.toList.take 4), x = .utf8) :
    readStored bytes = Xml.readDocument text.toList := by
  by_cases hnamed : e = .utf8 ∨ declaredEncoding? text ≠ none
  · rw [readStored, htold.decodeStored_eq henc hdetect hnamed, Option.bind_some]
  · rw [not_or, not_not] at hnamed
    obtain ⟨hother, hname⟩ := hnamed
    have hdeclared := htold.takeDeclared_eq_none hother hname
    have hmark := head?_of_encode htold.1 hother henc
    obtain ⟨bytesOf, ht, hbytes⟩ := e.transparent_of_encode htold.1 henc
    -- neither the text nor what the bytes would be in UTF-8 can be read
    have hnone : Xml.readDocument text.toList = none := by
      cases hread : Xml.readDocument text.toList with
      | none => rfl
      | some contents =>
        obtain ⟨rest, hrest⟩ := Xml.takeDeclared_of_readDocument hread
        rw [hdeclared] at hrest
        cases hrest
    have hdecode : decodeStored bytes = Encoding.utf8.decode bytes := by
      rw [decodeStored_of_detectEncoding (htold.detectEncoding_eq hother henc), hbytes,
        declaredEncoding?_byteChars ht hmark, hname]
    rw [Xml.dropMark_of_head? hmark] at hdeclared
    rw [hnone, readStored, hdecode]
    cases hs : Encoding.utf8.decode bytes with
    | none => rfl
    | some s => exact readDocument_of_bytes htold.1 henc (htold.exists_front hother henc) hdeclared hs

end

/-! Bytes that look like units of several bytes. -/

/-- Such bytes begin with a byte that no UTF-8 has, or with a null behind a bracket or in front. -/
theorem detectEncoding_cases {bs : List UInt8} {x : Encoding} (h : detectEncoding (bs.take 4) = some x)
    (hx : x ≠ .utf8) :
    (∃ b more, bs = b :: more ∧ 0xFE ≤ b.toNat) ∨ (∃ more, bs = 0 :: more) ∨
      ∃ more, bs = 0x3C :: 0 :: more := by
  have hbs := List.take_append_drop 4 bs
  rw [detectEncoding.eq_def] at h
  split at h
  · cases h
    exact absurd rfl hx
  · next heq => exact .inl ⟨_, _, by rw [← hbs, heq]; rfl, by decide⟩
  · next heq => exact .inr (.inl ⟨_, by rw [← hbs, heq]; rfl⟩)
  · next heq => exact .inl ⟨_, _, by rw [← hbs, heq]; rfl, by decide⟩
  · next heq => exact .inl ⟨_, _, by rw [← hbs, heq]; rfl, by decide⟩
  · next heq => exact .inr (.inr ⟨_, by rw [← hbs, heq]; rfl⟩)
  · next heq => exact .inr (.inl ⟨_, by rw [← hbs, heq]; rfl⟩)
  · next heq => exact .inr (.inr ⟨_, by rw [← hbs, heq]; rfl⟩)
  · next heq => exact .inr (.inl ⟨_, by rw [← hbs, heq]; rfl⟩)
  · cases h

theorem head_utf8EncodeChar {c : Char} {b : UInt8} {bs : List UInt8} (h : String.utf8EncodeChar c = b :: bs) :
    b.toNat < 0xFE := by
  have hlt : ∀ n k, n + k < 0xFE → (UInt8.ofNat (n + k)).toNat < 0xFE := by
    intro n k hn
    rw [UInt8.toNat_ofNat', Nat.mod_eq_of_lt (by omega)]
    exact hn
  rw [String.utf8EncodeChar] at h
  split at h
  · next hle =>
    rw [← (List.cons.inj h).1, UInt8.toNat_ofNat']
    omega
  · split at h
    · rw [← (List.cons.inj h).1]
      exact hlt _ _ (by omega)
    · split at h
      · rw [← (List.cons.inj h).1]
        exact hlt _ _ (by omega)
      · rw [← (List.cons.inj h).1]
        exact hlt _ _ (by omega)

/-- Text whose UTF-8 looks like such bytes holds a null. -/
theorem null_of_detectEncoding {text : String} {x : Encoding}
    (h : detectEncoding (text.toUTF8.data.toList.take 4) = some x) (hx : x ≠ .utf8) :
    (∃ rest, text.toList = '\x00' :: rest) ∨ ∃ rest, text.toList = '<' :: '\x00' :: rest := by
  have hbytes := Text.toList_toUTF8 text
  have hview := (Xml.blurred_byteChars Text.transparent_utf8 text.toList).symm
  rw [← hbytes] at hview
  rcases detectEncoding_cases h hx with ⟨b, more, hbs, hb⟩ | ⟨more, hbs⟩ | ⟨more, hbs⟩
  · rw [hbytes] at hbs
    cases hcs : text.toList with
    | nil =>
      rw [hcs] at hbs
      cases hbs
    | cons c cs =>
      obtain ⟨first, tail, hfirst⟩ := List.exists_cons_of_ne_nil (String.utf8EncodeChar_ne_nil (c := c))
      rw [hcs, List.flatMap_cons, hfirst, List.cons_append, List.cons.injEq] at hbs
      have hlt := head_utf8EncodeChar hfirst
      rw [hbs.1] at hlt
      omega
  · rw [hbs, byteChars, List.map_cons] at hview
    obtain ⟨rest, hrest, -⟩ := hview.eq_cons (c := '\x00') (by decide)
    exact .inl ⟨rest, hrest⟩
  · rw [hbs, byteChars, List.map_cons, List.map_cons] at hview
    obtain ⟨tail, htail, hmore⟩ := hview.eq_cons (c := '<') (by decide)
    obtain ⟨rest, rfl, -⟩ := hmore.eq_cons (c := '\x00') (by decide)
    exact .inr ⟨rest, htail⟩

/-- With a null in front or behind its first bracket, a text is no document. -/
theorem readDocument_of_null {cs : List Char}
    (h : (∃ rest, cs = '\x00' :: rest) ∨ ∃ rest, cs = '<' :: '\x00' :: rest) :
    Xml.readDocument cs = none := by
  have hnull : ∀ entity rest, Xml.tokens entity ('\x00' :: rest) = none := by
    intro entity rest
    rw [Xml.tokens, List.length_cons, Xml.tokensWithin, Xml.takeToken, Xml.takeData]
    split
    · rfl
    · rw [show ('\x00' :: rest).takeWhile (· != '<') = '\x00' :: rest.takeWhile (· != '<') from
        List.takeWhile_cons_of_pos (by decide), Xml.pieces, Xml.piecesFrom, if_neg (by decide),
        if_neg (by decide)]
      rfl
    all_goals simp
  have hbracket : ∀ entity rest, Xml.tokens entity ('<' :: '\x00' :: rest) = none := by
    intro entity rest
    rw [Xml.tokens, List.length_cons, Xml.tokensWithin, Xml.takeToken, Xml.takeStartTag, Xml.takeName,
      if_neg (by decide)]
    · rfl
    all_goals simp
  rcases h with ⟨rest, rfl⟩ | ⟨rest, rfl⟩
  · have hprolog : ∀ rest, Xml.takeProlog ('\x00' :: rest) = some ({}, '\x00' :: rest) := fun _ => rfl
    rw [Xml.readDocument, Xml.dropMark_of_head? (by simp [Xml.byteOrderMark]),
      Text.unifyLineEnds_cons (by decide), Xml.readLines, hprolog]
    simp only [Option.bind_eq_bind, Option.bind_some, hnull, Option.bind_none]
  · have hprolog : ∀ rest, Xml.takeProlog ('<' :: '\x00' :: rest) = some ({}, '<' :: '\x00' :: rest) :=
      fun _ => rfl
    rw [Xml.readDocument, Xml.dropMark_of_head? (by simp [Xml.byteOrderMark]),
      Text.unifyLineEnds_cons (by decide), Text.unifyLineEnds_cons (by decide), Xml.readLines, hprolog]
    simp only [Option.bind_eq_bind, Option.bind_some, hbracket, Option.bind_none]

/-! The two readings. -/

theorem all_isAsciiSpace_flatMap {bytesOf : Char → List UInt8} (ht : Transparent bytesOf) (cs : List Char) :
    ((cs.flatMap bytesOf).all fun b => isAsciiSpace b.toNat) = cs.all fun c => isAsciiSpace c.toNat := by
  induction cs with
  | nil => rfl
  | cons c cs ih =>
    rw [List.flatMap_cons, List.all_append, List.all_cons, ih]
    by_cases hc : c.toNat < 128
    · rw [ht.low c hc, List.all_cons, List.all_nil, Bool.and_true, UInt8.toNat_ofNat',
        Nat.mod_eq_of_lt (by omega)]
    · have hhigh : ∀ n, 128 ≤ n → isAsciiSpace n = false := by
        intro n hn
        simp only [isAsciiSpace, Bool.or_eq_false_iff, Bool.and_eq_false_iff, beq_eq_false_iff_ne,
          decide_eq_false_iff_not]
        omega
      obtain ⟨b, bs, hb, hall⟩ := ht.high c (by omega)
      rw [hb, List.all_cons, hhigh _ (hall b List.mem_cons_self), hhigh c.toNat (by omega)]
      rfl

theorem namedEncoding?_of_mark {text : String} (hmark : text.toList.head? = some Xml.byteOrderMark) :
    namedEncoding? text = none := by
  obtain ⟨rest, hrest⟩ := List.head?_eq_some_iff.mp hmark
  rw [namedEncoding?, hrest, List.dropWhile_cons_of_neg (by decide)]
  rfl

/--
The encoding that is found in front of a text that can be read is the one that was read, unless an encoding
is found where none was declared.
-/
theorem IsToldIn.toUpper_eq_iff {text : String} {e : Encoding} (htold : IsToldIn text e) {bytes : ByteArray}
    (henc : e.encode text = some bytes) {contents : Contents}
    (hread : Xml.readDocument text.toList = some contents) :
    ((namedEncoding? text).getD "UTF-8").toUpper =
        (((contents.declaration.bind (·.encoding)).map String.ofList).getD "UTF-8").toUpper ↔
      (contents.declaration = none → ∀ name ∈ namedEncoding? text, name.toUpper = "UTF-8") := by
  cases hdeclaration : contents.declaration with
  | none =>
    rw [Option.bind_none, Option.map_none, Option.getD_none, toUpper_utf8]
    cases namedEncoding? text with
    | none => simp [toUpper_utf8]
    | some name => simp
  | some declaration =>
    refine iff_of_true ?_ (by simp)
    by_cases hmark : text.toList.head? = some Xml.byteOrderMark
    · have hutf8 : e = .utf8 := by
        by_contra hutf8
        exact head?_of_encode htold.1 hutf8 henc hmark
      obtain ⟨rest, hrest⟩ := Xml.takeDeclared_of_readDocument hread
      have hname := htold.2 _ hrest
      rw [hdeclaration, hutf8] at hname
      simp only [commonNames, List.mem_cons, List.not_mem_nil, or_false, Prod.mk.injEq, and_true,
        reduceCtorEq, and_false] at hname
      rw [namedEncoding?_of_mark hmark, Option.getD_none, toUpper_utf8]
      exact hname.symm
    · rw [namedEncoding?_of_contents hread hdeclaration hmark]
      rfl

theorem eq_utf8_of_all_isAsciiSpace {bs : List UInt8} (h : (bs.all fun b => isAsciiSpace b.toNat) = true)
    {x : Encoding} (hx : detectEncoding (bs.take 4) = some x) : x = .utf8 := by
  by_contra hother
  have hfirst : ∀ {b : UInt8} {more : List UInt8}, bs = b :: more → isAsciiSpace b.toNat = true := by
    rintro b more rfl
    rw [List.all_cons, Bool.and_eq_true] at h
    exact h.1
  rcases detectEncoding_cases hx hother with ⟨b, more, hbs, hb⟩ | ⟨more, hbs⟩ | ⟨more, hbs⟩
  · have hspace := hfirst hbs
    simp only [isAsciiSpace, Bool.or_eq_true, Bool.and_eq_true, beq_iff_eq, decide_eq_true_eq] at hspace
    omega
  · exact absurd (hfirst hbs) (by decide)
  · exact absurd (hfirst hbs) (by decide)

/--
A text and its bytes are read alike, where the bytes are those of the encoding that the declaration names,
except that without a declaration the text may begin with something that is taken for one, and that the
bytes may look like units of several bytes and be read as such.
-/
theorem readBytes_alike_iff {text : String} {e : Encoding} (htold : IsToldIn text e) {bytes : ByteArray}
    (henc : e.encode text = some bytes) (source : Option String) :
    ReadAlike (readText text source) (readBytes bytes source) ↔
      (∀ d contents, readText text source = .ok d → Xml.readDocument text.toList = some contents →
        contents.declaration = none → ∀ name ∈ namedEncoding? text, name.toUpper = "UTF-8") ∧
      ∀ x ∈ detectEncoding (bytes.data.toList.take 4), x ≠ .utf8 → readStored bytes = none := by
  obtain ⟨bytesOf, ht, hbytes⟩ := e.transparent_of_encode htold.1 henc
  have hblank := all_isAsciiSpace_flatMap ht text.toList
  rw [← hbytes] at hblank
  rw [readBytes, hblank, readText]
  split
  · next hall =>
    refine iff_of_true rfl ⟨by simp, fun x hx hother => absurd ?_ hother⟩
    exact eq_utf8_of_all_isAsciiSpace (hblank.trans hall) hx
  by_cases hdetect : ∀ x ∈ detectEncoding (bytes.data.toList.take 4), x = .utf8
  · rw [readStored_of_isToldIn htold henc hdetect]
    cases hread : Xml.readDocument text.toList with
    | none => exact iff_of_true rfl ⟨by simp, fun x hx hother => absurd (hdetect x hx) hother⟩
    | some contents =>
      dsimp only
      have halike := htold.toUpper_eq_iff henc hread
      constructor
      · rintro ⟨-, -, hencoding⟩
        refine ⟨fun d contents' _ hcontents' => ?_, fun x hx hother => absurd (hdetect x hx) hother⟩
        cases hcontents'
        exact halike.mp hencoding
      · rintro ⟨h, -⟩
        exact ⟨rfl, rfl, halike.mpr (h _ contents rfl rfl)⟩
  · obtain ⟨x, hx, hother⟩ : ∃ x ∈ detectEncoding (bytes.data.toList.take 4), x ≠ .utf8 := by
      simpa only [not_forall, exists_prop] using hdetect
    -- only UTF-8 can look so, and what looks so holds a null
    have hutf8 : e = .utf8 := by
      by_contra hutf8
      rw [htold.detectEncoding_eq hutf8 henc] at hx
      cases hx
    rw [hutf8] at henc
    cases henc
    rw [readDocument_of_null (null_of_detectEncoding hx hother)]
    dsimp only
    constructor
    · intro h
      refine ⟨by simp, fun _ _ _ => ?_⟩
      cases hstored : readStored text.toUTF8 with
      | none => rfl
      | some contents =>
        rw [hstored] at h
        exact h.elim
    · rintro ⟨-, h⟩
      rw [h x hx hother]
      exact rfl

def latinText : String := "<?xml version='1.0' encoding='ISO-8859-1'?><a>é</a>"

set_option maxRecDepth 10000 in
theorem readBytes_alike_latinText :
    IsToldIn latinText .latin1 ∧ ∃ bytes, Encoding.latin1.encode latinText = some bytes ∧
      ReadAlike (readText latinText none) (readBytes bytes none) := by
  have htold : IsToldIn latinText .latin1 := by decide +kernel
  obtain ⟨bytes, henc⟩ := Option.isSome_iff_exists.mp
    (show (Encoding.latin1.encode latinText).isSome = true by decide +kernel)
  refine ⟨htold, bytes, henc, (readBytes_alike_iff htold henc none).mpr ⟨?_, ?_⟩⟩
  · intro d contents _ hcontents hnone
    have hsome : ((Xml.readDocument latinText.toList).bind (·.declaration)).isSome = true := by
      decide +kernel
    rw [hcontents, Option.bind_some, hnone] at hsome
    cases hsome
  · rw [htold.detectEncoding_eq (by decide) henc]
    simp

/-- An instruction that names an encoding for what it points to. -/
def styled : String := "<?xml-stylesheet encoding='x'?><a/>"

set_option maxRecDepth 10000 in
/-- Read as text, the document has that encoding, and read from its bytes it has UTF-8. -/
theorem styled_not_alike :
    IsToldIn styled .utf8 ∧ ∃ bytes, Encoding.utf8.encode styled = some bytes ∧
      ¬ ReadAlike (readText styled none) (readBytes bytes none) := by
  have htext := eq_ok_getD (readText styled none) {} (by decide +kernel)
  have hbytes := eq_ok_getD (readBytes styled.toUTF8 none) {} (by decide +kernel)
  have hencoding : ((readText styled none).toOption.getD {}).encoding.toUpper ≠
      ((readBytes styled.toUTF8 none).toOption.getD {}).encoding.toUpper := by decide +kernel
  refine ⟨by decide +kernel, styled.toUTF8, rfl, fun h => ?_⟩
  rw [htext, hbytes] at h
  exact hencoding h.2.2

end Manifest
