import Manifest.Document.Store
import Manifest.Proofs.Document.FixedPoint
import Manifest.Proofs.Maintenance.Commit
import Manifest.Proofs.Xml.Declaration
import Manifest.Proofs.Xml.Opening

/-! Documents in files. What is stored for a document is decoded as the text that was written, unless its
declaration is left out where it is needed; so a document that was saved is loaded as the same document
wherever what was written for it can be read. -/

set_option autoImplicit false

namespace Manifest

open Manifest.Action (Gives gives_bind_iff gives_tree_iff gives_ofExcept_iff gives_record_iff
  gives_pure_iff)
open Manifest.Text (Encoding Transparent byteChars commonNames decode_latin1)
open Xml (Blurred Contents Markup isSpace writtenChars)

/-! The encoding that a text declares. -/

theorem declaredEncoding?_eq (text : String) :
    declaredEncoding? text = ((Xml.takeDeclared (Text.unifyLineEnds (Xml.dropMark text.toList))).map
      Prod.fst).bind fun declaration => (declaration.bind (·.encoding)).map String.ofList := by
  rw [declaredEncoding?]
  rcases Xml.takeDeclared (Text.unifyLineEnds (Xml.dropMark text.toList)) with _ | ⟨_ | declaration, rest⟩
  · rfl
  · rfl
  · rw [Option.map_some, Option.bind_some, Option.bind_some, Option.map_eq_bind]
    rfl

theorem declaredEncoding?_of_blurred {s t : String} (h : Blurred s.toList t.toList)
    (hs : s.toList.head? ≠ some Xml.byteOrderMark) (ht : t.toList.head? ≠ some Xml.byteOrderMark) :
    declaredEncoding? s = declaredEncoding? t := by
  rw [declaredEncoding?_eq, declaredEncoding?_eq, Xml.dropMark_of_head? hs, Xml.dropMark_of_head? ht,
    ← (Xml.blurred_unifyLineEnds _).takeDeclared, ← (Xml.blurred_unifyLineEnds _).takeDeclared,
    h.takeDeclared]

theorem declaredEncoding?_of_takeDeclared {s : String} (hs : s.toList.head? ≠ some Xml.byteOrderMark)
    {declaration : Option Xml.Declaration} {rest : List Char}
    (h : Xml.takeDeclared s.toList = some (declaration, rest)) :
    declaredEncoding? s = (declaration.bind (·.encoding)).map String.ofList := by
  rw [declaredEncoding?_eq, Xml.dropMark_of_head? hs, ← (Xml.blurred_unifyLineEnds _).takeDeclared, h]
  rfl

/-! The front of the bytes of a text. -/

theorem detectEncoding_eq_none {b : UInt8} {bs : List UInt8} (hb : b ≠ 0) :
    detectEncoding (((0x3C : UInt8) :: b :: bs).take 4) = none := by
  rw [detectEncoding.eq_def]
  split <;> simp_all

/-- Bytes that do not look like an encoding by themselves are decoded as their declaration says. -/
theorem decodeStored_of_detectEncoding {bytes : ByteArray}
    (h : detectEncoding (bytes.data.toList.take 4) = none) :
    decodeStored bytes =
      match declaredEncoding? (String.ofList (byteChars bytes.data.toList)) with
      | none => Encoding.utf8.decode bytes
      | some name =>
        match (Encoding.named? name).filter oneByteDeclaration with
        | some e => e.decode bytes
        | none => none := by
  rw [decodeStored, h, decode_latin1]
  rfl

theorem head?_byteChars (bytes : List UInt8) : (byteChars bytes).head? ≠ some Xml.byteOrderMark := by
  cases bytes with
  | nil => simp [byteChars]
  | cons b bytes =>
    intro h
    have hnat := Text.toNat_ofNat_byte b.toNat_lt
    rw [byteChars, List.map_cons, List.head?_cons, Option.some.injEq] at h
    rw [h] at hnat
    have hlt := b.toNat_lt
    have hmark : Xml.byteOrderMark.toNat = 65279 := rfl
    omega

/-- What is declared can be told from the bytes. -/
theorem declaredEncoding?_byteChars {bytesOf : Char → List UInt8} (ht : Transparent bytesOf) {s : String}
    (hs : s.toList.head? ≠ some Xml.byteOrderMark) :
    declaredEncoding? (String.ofList (byteChars (s.toList.flatMap bytesOf))) = declaredEncoding? s := by
  refine (declaredEncoding?_of_blurred ?_ hs ?_).symm
  · rw [String.toList_ofList]
    exact Xml.blurred_byteChars ht _
  · rw [String.toList_ofList]
    exact head?_byteChars _

section
variable {e : Encoding} {s : String} {bytes : ByteArray}

/-- The bytes of a text that begins with a bracket do not look like an encoding by themselves. -/
theorem detectEncoding_of_start (he : e.isCommon = true) (henc : e.encode s = some bytes)
    (hstart : ∃ c rest, s.toList = '<' :: c :: rest ∧ c ≠ '\x00') :
    detectEncoding (bytes.data.toList.take 4) = none := by
  obtain ⟨bytesOf, ht, hbytes⟩ := e.transparent_of_encode he henc
  obtain ⟨c, rest, hs, hc⟩ := hstart
  rw [hbytes, hs, List.flatMap_cons, ht.low '<' (by decide), List.flatMap_cons]
  by_cases hlow : c.toNat < 128
  · rw [ht.low c hlow]
    refine detectEncoding_eq_none fun hzero => hc ?_
    have hn : c.toNat = 0 := by
      have hnat : (UInt8.ofNat c.toNat).toNat = 0 := congrArg UInt8.toNat hzero
      rw [UInt8.toNat_ofNat'] at hnat
      omega
    rw [← Char.ofNat_toNat c, hn]
  · obtain ⟨b, bs, hb, hge⟩ := ht.high c (by omega)
    rw [hb]
    refine detectEncoding_eq_none fun hzero => ?_
    have hfirst := hge b List.mem_cons_self
    rw [hzero] at hfirst
    cases hfirst

/-- So they are decoded as the text itself declares. -/
theorem decodeStored_eq (he : e.isCommon = true) (henc : e.encode s = some bytes)
    (hstart : ∃ c rest, s.toList = '<' :: c :: rest ∧ c ≠ '\x00') :
    decodeStored bytes =
      match declaredEncoding? s with
      | none => Encoding.utf8.decode bytes
      | some name =>
        match (Encoding.named? name).filter oneByteDeclaration with
        | some e => e.decode bytes
        | none => none := by
  obtain ⟨bytesOf, ht, hbytes⟩ := e.transparent_of_encode he henc
  have hmark : s.toList.head? ≠ some Xml.byteOrderMark := by
    obtain ⟨c, rest, hs, -⟩ := hstart
    rw [hs]
    simp [Xml.byteOrderMark]
  rw [decodeStored_of_detectEncoding (detectEncoding_of_start he henc hstart), hbytes,
    declaredEncoding?_byteChars ht hmark]

/-- Bytes that begin with a declaration are decoded by the encoding that it names. -/
theorem decodeStored_declared (he : e.isCommon = true) (henc : e.encode s = some bytes)
    {name : String} (hname : Xml.isEncodingName name.toList = true)
    (hnamed : Encoding.named? name = some e) {rest : List Char}
    (hs : s.toList = renderDeclaration name ++ rest) : decodeStored bytes = some s := by
  have hstart : ∃ more, s.toList = '<' :: '?' :: more := by
    rw [hs, Xml.renderDeclaration_append]
    exact ⟨_, rfl⟩
  obtain ⟨more, hmore⟩ := hstart
  have hquote : '"' ∉ name.toList := by
    have hword := isEncodingWord_of_isEncodingName hname
    rw [String.ofList_toList] at hword
    exact (not_mem_encoding hword).1
  have hdeclared := Xml.takeDeclared_renderDeclaration hquote rest
  rw [if_pos hname, ← hs] at hdeclared
  have hbyte : oneByteDeclaration e = true := by
    cases e <;> first | rfl | cases he
  rw [decodeStored_eq he henc ⟨'?', more, hmore, by decide⟩, declaredEncoding?_of_takeDeclared
    (by rw [hmore]; simp [Xml.byteOrderMark]) hdeclared, Option.bind_some, Option.map_some,
    String.ofList_toList]
  simp only [hnamed, Option.filter_some, hbyte, if_true]
  exact e.decode_encode he henc

/-- Bytes that do not begin with a declaration are decoded as UTF-8. -/
theorem decodeStored_undeclared (he : e.isCommon = true) (henc : e.encode s = some bytes)
    (hstart : ∃ c rest, s.toList = '<' :: c :: rest ∧ c ≠ '\x00')
    (hno : ∀ c rest, s.toList = "<?xml".toList ++ c :: rest → isSpace c = false) :
    decodeStored bytes = Encoding.utf8.decode bytes := by
  have hmark : s.toList.head? ≠ some Xml.byteOrderMark := by
    obtain ⟨c, rest, hs, -⟩ := hstart
    rw [hs]
    simp [Xml.byteOrderMark]
  rw [decodeStored_eq he henc hstart,
    declaredEncoding?_of_takeDeclared hmark (Xml.takeDeclared_eq_none hno)]
  rfl

end

/-! What is stored for a document. -/

/-- What is written for a document begins with a bracket, and no null stands behind it. -/
theorem Document.WrittenAs.starts {d : Document} {contents : Contents} {style : Style}
    {before : List Markup} {root : Markup} {after : List Markup} {s : String}
    (h : d.WrittenAs contents style before root after s) :
    ∃ c rest, s.toList = '<' :: c :: rest ∧ c ≠ '\x00' := by
  have hroot : ∀ rest, ∃ c more, Xml.lineOf (root.laid 0) ++ rest = '<' :: c :: more ∧ c ≠ '\x00' := by
    intro rest
    have hstart := Xml.startsTag_renderAt (isElement_laid h.isElement 0)
      (Markup.sound_laid root h.sound 0) (['\n'] ++ rest)
    obtain ⟨c, more, hmore, hc⟩ := Xml.startsTag_eq_true hstart
    refine ⟨c, more, by rw [Xml.lineOf, List.append_assoc, hmore], ?_⟩
    rintro rfl
    exact absurd hc (by decide)
  rw [h.chars, writtenChars]
  cases d.declared style with
  | some e =>
    rw [Xml.declarationChars, Option.map_some, Option.getD_some, Xml.renderDeclaration_append]
    exact ⟨'?', _, rfl, by decide⟩
  | none =>
    cases d.typed contents with
    | some x =>
      rw [Xml.doctypeChars, Option.map_some, Option.getD_some, Xml.toList_render]
      exact ⟨'!', _, rfl, by decide⟩
    | none =>
      cases before with
      | nil => exact hroot _
      | cons m ms =>
        have hremark := (h.front m (by simp)).1
        cases m with
        | comment value => exact ⟨'!', _, rfl, by decide⟩
        | instruction target value => exact ⟨'?', _, rfl, by decide⟩
        | _ => cases hremark

/-- Without a declaration it does not begin like one. -/
theorem Document.WrittenAs.not_declared {d : Document} {contents : Contents} {style : Style}
    {before : List Markup} {root : Markup} {after : List Markup} {s : String}
    (h : d.WrittenAs contents style before root after s) (hno : style.declaration = false)
    {c : Char} {rest : List Char} (hs : s.toList = "<?xml".toList ++ c :: rest) :
    isSpace c = false := by
  by_contra hc
  have hopens : Xml.opensDeclaration s.toList = true :=
    Xml.opensDeclaration_iff.mpr ⟨c, rest, hs, by simpa using hc⟩
  rw [h.chars, Xml.opensDeclaration_writtenChars h.front (isElement_laid h.isElement 0)
    (Markup.sound_laid root h.sound 0), Document.declared, hno] at hopens
  cases hopens

theorem isEncodingName_map_toUpper (cs : List Char) :
    Xml.isEncodingName (cs.map Char.toUpper) = Xml.isEncodingName cs := by
  cases cs with
  | nil => rfl
  | cons c cs =>
    rw [List.map_cons, Xml.isEncodingName, Xml.isEncodingName, (Text.toUpper_spec c).2.2.1,
      List.all_map]
    congr 2
    funext d
    obtain ⟨-, -, halpha, hdigit, hmarks⟩ := Text.toUpper_spec d
    rw [Function.comp, halpha, hdigit, hmarks '.' (by simp), hmarks '_' (by simp),
      hmarks '-' (by simp)]

/-- The names of the common encodings can be declared. -/
theorem isEncodingName_of_common {name : String} {e : Encoding}
    (h : (name.toUpper, e) ∈ commonNames) : Xml.isEncodingName name.toList = true := by
  rw [← isEncodingName_map_toUpper, ← String.toList_map]
  change Xml.isEncodingName name.toUpper.toList = true
  simp only [commonNames, List.mem_cons, List.not_mem_nil, or_false, Prod.mk.injEq] at h
  rcases h with ⟨hname, -⟩ | ⟨hname, -⟩ | ⟨hname, -⟩ <;> rw [hname, String.toList_ofList] <;> decide

/--
What is stored for a document is decoded as the text that was written, if the declaration is there or
not needed: UTF-8 and text of characters below 128 are understood without it.
-/
theorem Document.WrittenAs.decodeStored_eq {d : Document} {contents : Contents} {style : Style}
    {before : List Markup} {root : Markup} {after : List Markup} {s : String}
    (h : d.WrittenAs contents style before root after s) {e : Encoding}
    (hname : (d.encoding.toUpper, e) ∈ commonNames)
    (htold : style.declaration = true ∨ e ≠ .latin1 ∨ ∀ c ∈ s.toList, c.toNat < 128)
    {bytes : ByteArray} (henc : e.encode s = some bytes) : decodeStored bytes = some s := by
  obtain ⟨hnamed, he⟩ := Encoding.named?_of_common hname
  cases hdeclaration : style.declaration with
  | true =>
    have hchars := h.chars
    rw [Document.declared, if_pos hdeclaration] at hchars
    exact decodeStored_declared he henc (isEncodingName_of_common hname) hnamed hchars
  | false =>
    rw [decodeStored_undeclared he henc h.starts fun c rest => h.not_declared hdeclaration]
    have hlow : e = .utf8 ∨ ∀ c ∈ s.toList, c.toNat < 128 := by
      rcases htold with htold | htold | htold
      · rw [hdeclaration] at htold
        cases htold
      · cases e with
        | utf8 => exact Or.inl rfl
        | ascii => exact Or.inr (Text.low_of_encode_ascii henc)
        | latin1 => exact absurd rfl htold
        | _ => cases he
      · exact Or.inr htold
    rcases hlow with rfl | hlow
    · exact Encoding.decode_encode rfl henc
    · exact e.decode_utf8_of_low he hlow henc

/-- The first byte that is stored for a document is no white space. -/
theorem Document.WrittenAs.head?_bytes {d : Document} {contents : Contents} {style : Style}
    {before : List Markup} {root : Markup} {after : List Markup} {s : String}
    (h : d.WrittenAs contents style before root after s) {e : Encoding} (he : e.isCommon = true)
    {bytes : ByteArray} (henc : e.encode s = some bytes) :
    (bytes.data.toList.all fun b => isAsciiSpace b.toNat) = false := by
  obtain ⟨bytesOf, ht, hbytes⟩ := e.transparent_of_encode he henc
  obtain ⟨c, rest, hs, -⟩ := h.starts
  rw [hbytes, hs, List.flatMap_cons, ht.low '<' (by decide)]
  rfl

/-- What is stored for a document is read as the same document exactly when what is written can be read. -/
theorem Document.WrittenAs.readBytes_same_iff {d : Document} {contents : Contents}
    (hd : d.IsOrdinary contents) {style : Style} {before : List Markup} {root : Markup}
    {after : List Markup} {s : String} (h : d.WrittenAs contents style before root after s)
    {bytes : ByteArray} (hfirst : (bytes.data.toList.all fun b => isAsciiSpace b.toNat) = false)
    (hdecode : decodeStored bytes = some s) (source : Option String) :
    (∃ d', readBytes bytes source = .ok d' ∧ d'.same d = true) ↔ d.CanBeRead contents style := by
  obtain ⟨hread, hnot⟩ := h.readText_eq hd source
  have hhead : s.toList.head? = some '<' := by
    obtain ⟨c, rest, hs, -⟩ := h.starts
    rw [hs]
    rfl
  rw [readText_of_head? hhead] at hread hnot
  rw [readBytes, hfirst, if_neg (by simp), readStored, hdecode, Option.bind_some]
  cases hcontents : Xml.readDocument s.toList with
  | none =>
    rw [hcontents] at hread
    constructor
    · rintro ⟨_, ⟨⟩, -⟩
    · intro hcan
      cases hread hcan
  | some written =>
    rw [hcontents] at hread hnot
    refine ⟨fun _ => ?_, fun hcan => ⟨_, rfl, ?_⟩⟩
    · by_contra hno
      cases hnot hno
    · -- the nodes are the same whatever the encoding is called
      have hsame := h.same_reread
      rwa [← Except.ok.inj (hread hcan)] at hsame

/-! Saving and loading. -/

theorem FileTree.Replaced.read {t t' : FileTree} {p : Path} {bytes : ByteArray}
    (h : t.Replaced t' p bytes) : t'.read p = .ok bytes := by
  obtain ⟨place, hplace, hcontent, -⟩ := h
  rw [FileTree.content?] at hcontent
  rw [FileTree.read, hplace]
  simp only [bind, Except.bind]
  split at hcontent
  · next he =>
    cases hcontent
    rw [he]
  · cases hcontent

/-- A document that has been saved is in its file. -/
theorem Document.gives_save {d : Document} {p : Path} {style : Style} {w w' : World}
    (h : Gives (d.save p style) w () w') :
    ∃ bytes, d.bytes style = .ok bytes ∧ w.tree.Replaced w'.tree p bytes := by
  cases hbytes : d.bytes style with
  | error e =>
    rw [Document.save, hbytes] at h
    cases h
  | ok bytes =>
    have hwrite := w.tree.writeWhole_spec p bytes
    rw [Gives, run_save hbytes] at h
    rcases hw : w.tree.writeWhole p bytes with ⟨t, ⟨stage, e⟩ | _⟩
    · rw [hw] at h
      cases stage <;> cases h
    · rw [hw] at h hwrite
      cases h
      exact ⟨bytes, rfl, hwrite⟩

/-- The bytes that are stored for a document are those of its text in its encoding. -/
theorem Document.bytes_eq_ok {d : Document} {style : Style} {e : Encoding} {bytes : ByteArray}
    (hname : Encoding.named? d.encoding = some e) :
    d.bytes style = .ok bytes ↔ ∃ s, d.render style = .ok s ∧ e.encode s = some bytes := by
  rw [Document.bytes]
  cases d.render style with
  | error e => simp
  | ok s =>
    dsimp only
    rw [encodeAs, hname]
    dsimp only
    cases henc : e.encode s <;> simp [henc]

/-- A file whose bytes can be read as a document is loaded. -/
theorem gives_load_iff {p : Path} {w : World} {d : Document} :
    (∃ w', Gives (Document.load p) w d w') ↔
      ∃ bytes, w.tree.read p = .ok bytes ∧ readBytes bytes (some p.text) = .ok d := by
  simp only [Document.load, Document.recordRead, gives_bind_iff, gives_tree_iff,
    gives_ofExcept_iff, gives_record_iff, gives_pure_iff]
  constructor
  · rintro ⟨w', tree, w₁, ⟨rfl, rfl⟩, bytes, w₂, ⟨hread, rfl⟩, -, w₃, -, d', w₄, ⟨hd, -⟩, -, w₅, -, rfl, -⟩
    exact ⟨bytes, hread, hd⟩
  · rintro ⟨bytes, hread, hd⟩
    exact ⟨_, _, _, ⟨rfl, rfl⟩, bytes, _, ⟨hread, rfl⟩, (), _, rfl, d, _, ⟨hd, rfl⟩, (), _, rfl, rfl,
      rfl⟩

/-- What is loaded depends on nothing but the bytes of the file. -/
theorem exists_load_of_read_eq {p : Path} {w w' w₀ : World} {d : Document}
    (h : Gives (Document.load p) w d w₀) (hread : w'.tree.read p = w.tree.read p) : ∃ w₁, Gives (Document.load p) w' d w₁ := by
  rw [gives_load_iff, hread]
  exact gives_load_iff.mp ⟨w₀, h⟩

/--
An ordinary document that has been saved in one of the common encodings is loaded again as the same
document exactly when what is written for it can be read, provided that the declaration is written or
not needed.
-/
theorem Document.IsOrdinary.load_save_iff {d : Document} {contents : Contents}
    (hd : d.IsOrdinary contents) {e : Encoding} (hname : (d.encoding.toUpper, e) ∈ commonNames)
    {style : Style} (hwhite : style.indent.isWhite = true)
    (htold : style.declaration = true ∨ e ≠ .latin1 ∨
      ∀ s, d.render style = .ok s → ∀ c ∈ s.toList, c.toNat < 128)
    {p : Path} {w w' : World} (hsave : Gives (d.save p style) w () w') :
    (∃ d' w'', Gives (Document.load p) w' d' w'' ∧ d'.same d = true) ↔
      (∀ type ∈ contents.doctype, type.id.isComplete = true) ∧ depthOf d.nodes ≤ Xml.maxDepth := by
  obtain ⟨hnamed, he⟩ := Encoding.named?_of_common hname
  obtain ⟨bytes, hbytes, hreplaced⟩ := Document.gives_save hsave
  obtain ⟨s, hs, henc⟩ := (Document.bytes_eq_ok hnamed).mp hbytes
  obtain ⟨before, root, after, hwritten⟩ := hd.render_eq hwhite hs
  have hdecode := hwritten.decodeStored_eq hname
    (htold.imp_right fun h => h.imp_right fun h => h s hs) henc
  have hload : (∃ d' w'', Gives (Document.load p) w' d' w'' ∧ d'.same d = true) ↔
      ∃ d', readBytes bytes (some p.text) = .ok d' ∧ d'.same d = true := by
    constructor
    · rintro ⟨d', w'', hgives, hsame⟩
      obtain ⟨bytes', hread, hd'⟩ := gives_load_iff.mp ⟨w'', hgives⟩
      rw [hreplaced.read] at hread
      cases hread
      exact ⟨d', hd', hsame⟩
    · rintro ⟨d', hd', hsame⟩
      obtain ⟨w'', hgives⟩ := gives_load_iff.mpr ⟨bytes, hreplaced.read, hd'⟩
      exact ⟨d', w'', hgives, hsame⟩
  rw [hload, hwritten.readBytes_same_iff hd (hwritten.head?_bytes he henc) hdecode]
  exact ⟨fun hcan => ⟨hcan.doctype, hcan.depth⟩,
    fun ⟨htype, hdepth⟩ => ⟨htype, fun _ => isEncodingName_of_common hname, hdepth⟩⟩

/--
A document that was read and has been saved in one of the common encodings is loaded again as the same
document exactly when a document type with a public identifier has a system identifier, provided that
the declaration is written or not needed.
-/
theorem load_save_same_iff {d : Document} {contents : Contents} (h : d.HasRead contents)
    (hcalm : calmAll d.nodes) {e : Encoding} (hname : (d.encoding.toUpper, e) ∈ commonNames)
    {style : Style} (hwhite : style.indent.isWhite = true)
    (htold : style.declaration = true ∨ e ≠ .latin1 ∨
      ∀ s, d.render style = .ok s → ∀ c ∈ s.toList, c.toNat < 128)
    {p : Path} {w w' : World} (hsave : Gives (d.save p style) w () w') :
    (∃ d' w'', Gives (Document.load p) w' d' w'' ∧ d'.same d = true) ↔
      ∀ type ∈ contents.doctype, type.id.isComplete = true := by
  rw [(h.isOrdinary_of_calm hcalm).load_save_iff hname hwhite htold hsave]
  exact ⟨fun hcan => hcan.1, fun htype => ⟨htype, h.depth_le⟩⟩

/-- A manifest in an encoding in which its text has other bytes than in UTF-8. -/
def inLatin1 : Document :=
  (readText "<?xml version=\"1.0\" encoding=\"ISO-8859-1\"?><a>é</a>" none).toOption.getD {}

/-- The file in which it is saved. -/
def manifestFile : Path := ⟨["pom.xml"]⟩

set_option maxRecDepth 10000 in
theorem load_save_inLatin1 :
    ∃ contents w', inLatin1.HasRead contents ∧ calmAll inLatin1.nodes ∧
      (inLatin1.encoding.toUpper, Encoding.latin1) ∈ commonNames ∧
      Gives (inLatin1.save manifestFile {}) {} () w' ∧
      ∃ d' w'', Gives (Document.load manifestFile) w' d' w'' ∧ d'.same inLatin1 = true := by
  have hread := eq_ok_getD
    (readText "<?xml version=\"1.0\" encoding=\"ISO-8859-1\"?><a>é</a>" none) {} (by decide +kernel)
  obtain ⟨contents, hcontents, -⟩ := readText_eq_ok hread
  have hdoctype : contents.doctype = none := by
    have hnone : (Xml.readDocument
        "<?xml version=\"1.0\" encoding=\"ISO-8859-1\"?><a>é</a>".toList).bind (·.doctype) = none := by
      decide +kernel
    rwa [hcontents] at hnone
  have hsubset := Contents.withoutSubset_of_doctype_eq_none hdoctype
  have hhas : inLatin1.HasRead contents := .text hread hcontents
  have hname : (inLatin1.encoding.toUpper, Encoding.latin1) ∈ commonNames := by
    have hupper : inLatin1.encoding.toUpper = "ISO-8859-1" := by
      rw [← String.toList_inj, String.toUpper, String.toList_map]
      decide +kernel
    rw [hupper]
    decide
  have hsave := Action.gives_after (a := inLatin1.save manifestFile {}) (w := {}) (by decide +kernel)
  refine ⟨contents, _, hhas, hhas.calm hsubset, hname, hsave,
    (load_save_same_iff hhas (hhas.calm hsubset) hname rfl (Or.inl rfl) hsave).mpr ?_⟩
  rw [hdoctype]
  rintro _ ⟨⟩

set_option maxRecDepth 10000 in
/-- Without its declaration it is saved in bytes that are not UTF-8, and cannot be loaded. -/
theorem inLatin1_not_loaded :
    readText "<?xml version=\"1.0\" encoding=\"ISO-8859-1\"?><a>é</a>" none = .ok inLatin1 ∧
      ∃ w', Gives (inLatin1.save manifestFile { declaration := false }) {} () w' ∧
        ¬ ∃ d' w'', Gives (Document.load manifestFile) w' d' w'' := by
  refine ⟨eq_ok_getD _ {} (by decide +kernel), _,
    Action.gives_after (a := inLatin1.save manifestFile { declaration := false }) (w := {})
      (by decide +kernel), fun ⟨d', w'', hload⟩ => ?_⟩
  have hfails : ((ExceptT.run (Document.load manifestFile)).run
      ((inLatin1.save manifestFile { declaration := false }).after {})).1.toOption.isSome = false := by
    decide +kernel
  rw [hload] at hfails
  cases hfails

end Manifest
