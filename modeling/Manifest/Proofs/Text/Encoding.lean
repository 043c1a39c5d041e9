import Manifest.Text.Encoding
import Mathlib.Data.List.Basic

/-! Text in the encodings in which manifests are stored. Their characters below 128, and no others, are
bytes below 128, so that the front of a document can be told from its bytes whatever the encoding. -/

set_option autoImplicit false

namespace Manifest.Text

/-- Encodings in which every byte below 128 is a character of the same number. -/
def Encoding.isCommon : Encoding → Bool
  | .utf8 | .ascii | .latin1 => true
  | _ => false

/-- Whether bytes for characters are those of the same number below 128, and are 128 or more elsewhere. -/
structure Transparent (bytesOf : Char → List UInt8) : Prop where
  low : ∀ c, c.toNat < 128 → bytesOf c = [UInt8.ofNat c.toNat]
  high : ∀ c, 128 ≤ c.toNat → ∃ b rest, bytesOf c = b :: rest ∧ ∀ x ∈ b :: rest, 128 ≤ x.toNat

/-- Bytes as the characters of the same numbers. -/
def byteChars (bytes : List UInt8) : List Char :=
  bytes.map fun b => Char.ofNat b.toNat

theorem toNat_ofNat_byte {n : Nat} (h : n < 256) : (Char.ofNat n).toNat = n := by
  have hvalid : n.isValidChar := Or.inl (by omega)
  rw [Char.ofNat, dif_pos hvalid]
  rfl

theorem ofNat_toNat_ofNat {c : Char} (h : c.toNat < 256) :
    Char.ofNat (UInt8.ofNat c.toNat).toNat = c := by
  rw [UInt8.toNat_ofNat', Nat.mod_eq_of_lt (by simpa using h), Char.ofNat_toNat]

/-- All bytes can be read as characters of the same numbers. -/
theorem decode_latin1 (bytes : ByteArray) :
    Encoding.latin1.decode bytes = some (String.ofList (byteChars bytes.data.toList)) := by
  have hall : ∀ bs : List UInt8, bs.mapM (decodeBelow 256) = some (byteChars bs) := by
    intro bs
    induction bs with
    | nil => rfl
    | cons b bs ih =>
      rw [List.mapM_cons, ih, decodeBelow, if_pos b.toNat_lt]
      rfl
  rw [Encoding.decode, hall]
  rfl

/-! The bytes of a text. -/

theorem transparent_utf8 : Transparent String.utf8EncodeChar := by
  refine ⟨fun c hc => ?_, fun c hc => ?_⟩
  · have hv : c.val.toNat ≤ 127 := by
      have hn : c.toNat = c.val.toNat := rfl
      omega
    rw [String.utf8EncodeChar, if_pos hv]
    rfl
  · have hv : ¬ c.val.toNat ≤ 127 := by
      have hn : c.toNat = c.val.toNat := rfl
      omega
    rw [String.utf8EncodeChar, if_neg hv]
    have hbyte : ∀ n k, 128 ≤ k → n + k < 256 → 128 ≤ (UInt8.ofNat (n + k)).toNat := by
      intro n k hk hn
      rw [UInt8.toNat_ofNat', Nat.mod_eq_of_lt hn]
      omega
    split
    · refine ⟨_, _, rfl, ?_⟩
      simp only [List.forall_mem_cons]
      exact ⟨hbyte _ _ (by omega) (by omega), hbyte _ _ (by omega) (by omega), nofun⟩
    · split
      · refine ⟨_, _, rfl, ?_⟩
        simp only [List.forall_mem_cons]
        exact ⟨hbyte _ _ (by omega) (by omega), hbyte _ _ (by omega) (by omega),
          hbyte _ _ (by omega) (by omega), nofun⟩
      · refine ⟨_, _, rfl, ?_⟩
        simp only [List.forall_mem_cons]
        exact ⟨hbyte _ _ (by omega) (by omega), hbyte _ _ (by omega) (by omega),
          hbyte _ _ (by omega) (by omega), hbyte _ _ (by omega) (by omega), nofun⟩

/-- The byte of a character, and the last one for characters that have none. -/
def nearestByte (c : Char) : List UInt8 :=
  [UInt8.ofNat (min c.toNat 255)]

theorem transparent_nearestByte : Transparent nearestByte := by
  refine ⟨fun c hc => ?_, fun c hc => ⟨_, _, rfl, ?_⟩⟩
  · rw [nearestByte, Nat.min_eq_left (by omega)]
  · rw [List.forall_mem_singleton, UInt8.toNat_ofNat']
    omega

theorem mapM_encodeBelow {limit : Nat} (hlimit : limit ≤ 256) {cs : List Char} {bs : List UInt8}
    (h : cs.mapM (encodeBelow limit) = some bs) :
    bs = cs.flatMap nearestByte ∧ bs.mapM (decodeBelow limit) = some cs := by
  induction cs generalizing bs with
  | nil =>
    cases h
    exact ⟨rfl, rfl⟩
  | cons c cs ih =>
    rw [List.mapM_cons] at h
    obtain ⟨b, hb, h⟩ := Option.bind_eq_some_iff.mp h
    obtain ⟨more, hmore, h⟩ := Option.bind_eq_some_iff.mp h
    cases h
    obtain ⟨hbytes, hback⟩ := ih hmore
    rw [encodeBelow] at hb
    split at hb
    · next hc =>
      cases hb
      have hsame : (UInt8.ofNat c.toNat).toNat = c.toNat := by
        rw [UInt8.toNat_ofNat', Nat.mod_eq_of_lt (by omega)]
      constructor
      · rw [List.flatMap_cons, nearestByte, Nat.min_eq_left (by omega), ← hbytes]
        rfl
      · rw [List.mapM_cons, hback, decodeBelow, hsame, if_pos hc, Char.ofNat_toNat]
        rfl
    · cases hb

theorem toList_toUTF8 (s : String) : s.toUTF8.data.toList = s.toList.flatMap String.utf8EncodeChar := by
  have h := @String.toByteArray_ofList s.toList
  rw [String.ofList_toList] at h
  rw [String.toUTF8_eq_toByteArray, h, List.utf8Encode, List.data_toByteArray]

/-- A text is stored as bytes from which its characters below 128 can be told. -/
theorem Encoding.transparent_of_encode {e : Encoding} (he : e.isCommon = true) {s : String}
    {bytes : ByteArray} (h : e.encode s = some bytes) :
    ∃ bytesOf, Transparent bytesOf ∧ bytes.data.toList = s.toList.flatMap bytesOf := by
  have hbelow : ∀ limit ≤ 256, (s.toList.mapM (encodeBelow limit)).map ofBytes = some bytes →
      bytes.data.toList = s.toList.flatMap nearestByte := by
    intro limit hlimit h
    obtain ⟨bs, hbs, rfl⟩ := Option.map_eq_some_iff.mp h
    exact (mapM_encodeBelow hlimit hbs).1
  cases e with
  | utf8 =>
    cases h
    exact ⟨_, transparent_utf8, toList_toUTF8 s⟩
  | ascii => exact ⟨_, transparent_nearestByte, hbelow 128 (by decide) h⟩
  | latin1 => exact ⟨_, transparent_nearestByte, hbelow 256 (by decide) h⟩
  | _ => cases he

/-- Each of these encodings reads back what it wrote. -/
theorem Encoding.decode_encode {e : Encoding} (he : e.isCommon = true) {s : String}
    {bytes : ByteArray} (h : e.encode s = some bytes) : e.decode bytes = some s := by
  have hbelow : ∀ limit ≤ 256, (s.toList.mapM (encodeBelow limit)).map ofBytes = some bytes →
      (bytes.data.toList.mapM (decodeBelow limit)).map String.ofList = some s := by
    intro limit hlimit h
    obtain ⟨bs, hbs, rfl⟩ := Option.map_eq_some_iff.mp h
    rw [ofBytes, (mapM_encodeBelow hlimit hbs).2, Option.map_some, String.ofList_toList]
  cases e with
  | utf8 =>
    have hback := decode_encode_utf8 s
    rwa [h, Option.bind_some] at hback
  | ascii => exact hbelow 128 (by decide) h
  | latin1 => exact hbelow 256 (by decide) h
  | _ => cases he

/-- Text of characters below 128 is stored as the same bytes by all of these encodings. -/
theorem Encoding.decode_utf8_of_low {e : Encoding} (he : e.isCommon = true) {s : String}
    (hlow : ∀ c ∈ s.toList, c.toNat < 128) {bytes : ByteArray} (h : e.encode s = some bytes) :
    Encoding.utf8.decode bytes = some s := by
  have hsame : ∀ {bytesOf : Char → List UInt8}, Transparent bytesOf →
      s.toList.flatMap bytesOf = s.toList.map fun c => UInt8.ofNat c.toNat := by
    intro bytesOf ht
    rw [List.flatMap_congr fun c hc => ht.low c (hlow c hc), List.map_eq_flatMap]
  obtain ⟨bytesOf, ht, hbytes⟩ := e.transparent_of_encode he h
  have hutf8 : bytes = s.toUTF8 := by
    rw [hsame ht, ← hsame transparent_utf8, ← toList_toUTF8] at hbytes
    exact ByteArray.ext (Array.toList_inj.mp hbytes)
  have hback := decode_encode_utf8 s
  rwa [Encoding.encode, Option.bind_some, ← hutf8] at hback

/-- What can be stored as ASCII consists of characters below 128. -/
theorem low_of_encode_ascii {s : String} {bytes : ByteArray}
    (h : Encoding.ascii.encode s = some bytes) : ∀ c ∈ s.toList, c.toNat < 128 := by
  obtain ⟨bs, hbs, -⟩ := Option.map_eq_some_iff.mp h
  generalize s.toList = cs at hbs
  induction cs generalizing bs with
  | nil => exact nofun
  | cons c cs ih =>
    rw [List.mapM_cons] at hbs
    obtain ⟨b, hb, hbs⟩ := Option.bind_eq_some_iff.mp hbs
    obtain ⟨more, hmore, -⟩ := Option.bind_eq_some_iff.mp hbs
    rw [List.forall_mem_cons]
    refine ⟨?_, ih more hmore⟩
    rw [encodeBelow] at hb
    split at hb
    · assumption
    · cases hb

/-! Names of encodings. -/

/-- The names, in capitals, by which these encodings are known everywhere. -/
def commonNames : List (String × Encoding) :=
  [("UTF-8", .utf8), ("ISO-8859-1", .latin1), ("US-ASCII", .ascii)]

theorem toUpper_cases (c : Char) : c.toUpper = c ∨ c ∈ "abcdefghijklmnopqrstuvwxyz".toList := by
  have hall : ∀ n ∈ List.range' 97 26, Char.ofNat n ∈ "abcdefghijklmnopqrstuvwxyz".toList := by
    decide
  unfold Char.toUpper
  split
  · next h =>
    have hc := hall c.toNat (by
      rw [List.mem_range'_1]
      have h₁ := UInt32.le_iff_toNat_le.mp h.1
      have h₂ := UInt32.le_iff_toNat_le.mp h.2
      have hn : c.toNat = c.val.toNat := rfl
      have ha : 'a'.val.toNat = 97 := rfl
      have hz : 'z'.val.toNat = 122 := rfl
      omega)
    rw [Char.ofNat_toNat] at hc
    exact Or.inr hc
  · exact Or.inl rfl

/-- Capitals are letters and digits where the small ones are, and have the same small ones. -/
theorem toUpper_spec (c : Char) :
    c.toUpper.toLower = c.toLower ∧ c.toUpper.isAlphanum = c.isAlphanum ∧
      c.toUpper.isAlpha = c.isAlpha ∧ c.toUpper.isDigit = c.isDigit ∧
        ∀ d ∈ ['.', '_', '-'], (c.toUpper == d) = (c == d) := by
  rcases toUpper_cases c with h | h
  · rw [h]
    exact ⟨rfl, rfl, rfl, rfl, fun _ _ => rfl⟩
  · have hall : ("abcdefghijklmnopqrstuvwxyz".toList.all fun c =>
        c.toUpper.toLower == c.toLower && c.toUpper.isAlphanum == c.isAlphanum &&
          c.toUpper.isAlpha == c.isAlpha && c.toUpper.isDigit == c.isDigit &&
            ['.', '_', '-'].all fun d => (c.toUpper == d) == (c == d)) = true := by decide
    have hc := List.all_eq_true.mp hall c h
    simp only [Bool.and_eq_true, beq_iff_eq, List.all_eq_true, and_assoc] at hc
    exact hc

theorem normalName_map_toUpper (started : Bool) (cs : List Char) :
    normalName started (cs.map Char.toUpper) = normalName started cs := by
  have hpart : ∀ c : Char, (c.toUpper.isAlphanum || c.toUpper == '.') =
      (c.isAlphanum || c == '.') := by
    intro c
    obtain ⟨-, halphanum, -, -, hmarks⟩ := toUpper_spec c
    rw [halphanum, hmarks '.' (by simp)]
  induction cs generalizing started with
  | nil => rfl
  | cons c cs ih =>
    cases cs with
    | nil => rw [List.map_singleton, normalName, normalName, hpart, (toUpper_spec c).1]; rfl
    | cons d cs =>
      rw [List.map_cons] at ih
      rw [List.map_cons, List.map_cons, normalName, normalName, hpart, hpart, (toUpper_spec c).1, ih, ih]

/-- A name of one of these encodings, in letters of any size, is understood. -/
theorem Encoding.named?_of_common {name : String} {e : Encoding}
    (h : (name.toUpper, e) ∈ commonNames) : Encoding.named? name = some e ∧ e.isCommon = true := by
  have hupper : Encoding.named? name.toUpper = Encoding.named? name := by
    rw [Encoding.named?, Encoding.named?, String.toUpper, String.toList_map, normalName_map_toUpper]
  rw [← hupper]
  simp only [commonNames, List.mem_cons, List.not_mem_nil, or_false, Prod.mk.injEq] at h
  rcases h with ⟨hname, rfl⟩ | ⟨hname, rfl⟩ | ⟨hname, rfl⟩ <;> rw [hname] <;> decide +kernel

end Manifest.Text
