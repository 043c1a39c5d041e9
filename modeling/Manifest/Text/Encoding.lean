import Manifest.Text.CodePage
import Manifest.Text.Blank

/-!
Encodings: how text is stored as bytes.

`encode` fails on a character that the encoding has no bytes for, `decode` on bytes that stand for
no text. Main statement: UTF-8 reads back what it wrote (`decode_encode_utf8`).
-/

set_option autoImplicit false

namespace Manifest.Text

/-- Ways to store text as bytes. -/
inductive Encoding where
  | utf8
  /-- UTF-8 with a byte order mark in front. -/
  | utf8Marked
  | ascii
  | latin1
  /-- Units of two bytes, most significant byte first or not, with a byte order mark or without. -/
  | utf16 (bigEndian marked : Bool)
  /-- Units of four bytes. -/
  | utf32 (bigEndian marked : Bool)
  | page (table : CodePage)
  deriving Repr, DecidableEq

/-- The bytes of a unit of two bytes. -/
def bytes16 (bigEndian : Bool) (n : Nat) : List UInt8 :=
  let high := UInt8.ofNat (n / 256)
  let low := UInt8.ofNat (n % 256)
  if bigEndian then [high, low] else [low, high]

/-- The bytes of a unit of four bytes. -/
def bytes32 (bigEndian : Bool) (n : Nat) : List UInt8 :=
  let high := bytes16 bigEndian (n / 65536)
  let low := bytes16 bigEndian (n % 65536)
  if bigEndian then high ++ low else low ++ high

/-- The bytes of a character in units of two bytes. -/
def encodeChar16 (bigEndian : Bool) (c : Char) : List UInt8 :=
  if c.toNat < 0x10000 then bytes16 bigEndian c.toNat
  else
    let n := c.toNat - 0x10000
    bytes16 bigEndian (0xD800 + n / 0x400) ++ bytes16 bigEndian (0xDC00 + n % 0x400)

/-- The byte order mark. -/
def mark : Char := '\ufeff'

/-- The byte that a page has for a character. -/
def CodePage.encodeChar? (p : CodePage) (c : Char) : Option UInt8 :=
  if c.toNat < 128 then some (UInt8.ofNat c.toNat)
  else if c == '\ufffd' then none
  else (p.upper.toList.findIdx? (· == c)).map fun i => UInt8.ofNat (128 + i)

/-- The character that a page has for a byte. -/
def CodePage.decodeByte? (p : CodePage) (b : UInt8) : Option Char :=
  if b.toNat < 128 then some (Char.ofNat b.toNat)
  else (p.upper.toList[b.toNat - 128]?).filter (· != '\ufffd')

/-- The byte of a character whose number is below a limit. -/
def encodeBelow (limit : Nat) (c : Char) : Option UInt8 :=
  if c.toNat < limit then some (UInt8.ofNat c.toNat) else none

/-- The character of a byte below a limit. -/
def decodeBelow (limit : Nat) (b : UInt8) : Option Char :=
  if b.toNat < limit then some (Char.ofNat b.toNat) else none

/-- Bytes put together. -/
def ofBytes (bytes : List UInt8) : ByteArray :=
  ⟨bytes.toArray⟩

/-- The bytes of a text, if the encoding has bytes for every character. -/
def Encoding.encode (e : Encoding) (s : String) : Option ByteArray :=
  match e with
  | .utf8 => some s.toUTF8
  | .utf8Marked => some (mark.toString ++ s).toUTF8
  | .ascii => (s.toList.mapM (encodeBelow 128)).map ofBytes
  | .latin1 => (s.toList.mapM (encodeBelow 256)).map ofBytes
  | .utf16 bigEndian marked =>
    let cs := if marked then mark :: s.toList else s.toList
    some (ofBytes (cs.flatMap (encodeChar16 bigEndian)))
  | .utf32 bigEndian marked =>
    let cs := if marked then mark :: s.toList else s.toList
    some (ofBytes (cs.flatMap fun c => bytes32 bigEndian c.toNat))
  | .page table => (s.toList.mapM table.encodeChar?).map ofBytes

/-- Units of two bytes, if the bytes come in pairs. -/
def units16 (bigEndian : Bool) : List UInt8 → Option (List Nat)
  | [] => some []
  | [_] => none
  | a :: b :: rest =>
    let unit := if bigEndian then a.toNat * 256 + b.toNat else b.toNat * 256 + a.toNat
    (units16 bigEndian rest).map (unit :: ·)

/-- The characters that units of two bytes stand for. -/
def charsOf16 : List Nat → Option (List Char)
  | [] => some []
  | high :: rest =>
    if high < 0xD800 || 0xE000 ≤ high then (charsOf16 rest).map (Char.ofNat high :: ·)
    else if high < 0xDC00 then
      match rest with
      | low :: rest =>
        if 0xDC00 ≤ low && low < 0xE000 then
          (charsOf16 rest).map
            (Char.ofNat (0x10000 + (high - 0xD800) * 0x400 + (low - 0xDC00)) :: ·)
        else none
      | [] => none
    else none

/-- The characters that units of four bytes stand for, given as pairs of two. -/
def charsOf32 (bigEndian : Bool) : List Nat → Option (List Char)
  | [] => some []
  | [_] => none
  | a :: b :: rest =>
    let n := if bigEndian then a * 65536 + b else b * 65536 + a
    if n.isValidChar then (charsOf32 bigEndian rest).map (Char.ofNat n :: ·) else none

/-- The text that bytes stand for, a byte order mark included. -/
def Encoding.decode (e : Encoding) (bytes : ByteArray) : Option String :=
  match e with
  | .utf8 | .utf8Marked => String.fromUTF8? bytes
  | .ascii => (bytes.data.toList.mapM (decodeBelow 128)).map String.ofList
  | .latin1 => (bytes.data.toList.mapM (decodeBelow 256)).map String.ofList
  | .utf16 bigEndian _ =>
    ((units16 bigEndian bytes.data.toList).bind charsOf16).map String.ofList
  | .utf32 bigEndian _ =>
    ((units16 bigEndian bytes.data.toList).bind (charsOf32 bigEndian)).map String.ofList
  | .page table => (bytes.data.toList.mapM table.decodeByte?).map String.ofList

/-- Names of encodings that are not pages. -/
def wideNames : List (List String × Encoding) :=
  [(["utf_8", "utf8", "u8", "utf", "utf8_ucs2", "utf8_ucs4", "cp65001"], .utf8),
   (["utf_8_sig"], .utf8Marked),
   (["ascii", "us_ascii", "us", "646", "ansi_x3.4_1968", "ansi_x3.4_1986", "ansi_x3_4_1968",
     "cp367", "csascii", "ibm367", "iso646_us", "iso_646.irv_1991", "iso_ir_6"], .ascii),
   (["latin_1", "iso_8859_1", "iso8859_1", "latin1", "latin", "l1", "8859", "cp819", "csisolatin1",
     "ibm819", "iso8859", "iso_8859_1_1987", "iso_ir_100"], .latin1),
   (["utf_16", "utf16", "u16"], .utf16 false true),
   (["utf_16_le", "utf_16le", "unicodelittleunmarked"], .utf16 false false),
   (["utf_16_be", "utf_16be", "unicodebigunmarked"], .utf16 true false),
   (["utf_32", "utf32", "u32"], .utf32 false true),
   (["utf_32_le", "utf_32le"], .utf32 false false),
   (["utf_32_be", "utf_32be"], .utf32 true false)]

/--
The parts of a name joined by underscores: letters and digits, small ones, and dots stay; every run
of other characters between two of them becomes one underscore.
-/
def normalName : Bool → List Char → List Char
  | _, [] => []
  | started, c :: cs =>
    if c.isAlphanum || c == '.' then c.toLower :: normalName true cs
    else
      match cs with
      | [] => []
      | d :: _ =>
        if started && (d.isAlphanum || d == '.') then '_' :: normalName true cs
        else normalName started cs

/-- The encoding of a given name. -/
def Encoding.named? (name : String) : Option Encoding :=
  let plain := String.ofList (normalName false name.toList)
  match wideNames.find? (·.1.contains plain) with
  | some (_, e) => some e
  | none => (CodePage.all.find? (·.names.contains plain)).map .page

/-- UTF-8 reads back what it wrote. -/
theorem decode_encode_utf8 (s : String) :
    (Encoding.utf8.encode s).bind Encoding.utf8.decode = some s := by
  simp only [Encoding.encode, Encoding.decode, Option.bind_some]
  simp only [String.fromUTF8?]
  split
  · rfl
  · next h => exact absurd s.isValidUTF8 h

end Manifest.Text
