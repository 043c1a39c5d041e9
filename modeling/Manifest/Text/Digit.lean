import Manifest.Text.Ranges

/-!
Decimal digits of every script, their values, and the numbers they write.

A run of decimal digits in any script is a number. Other signs that show a digit (superscripts,
circled numbers) look like digits but have no place value; `decimal` refuses them, and it refuses
numbers of more digits than a reader is prepared to convert.
-/

set_option autoImplicit false

namespace Manifest.Text

/-- The zero of every block of ten decimal digits. -/
def digitZeros : List Nat :=
  [0x30, 0x660, 0x6F0, 0x7C0, 0x966, 0x9E6, 0xA66, 0xAE6, 0xB66, 0xBE6, 0xC66, 0xCE6, 0xD66,
   0xDE6, 0xE50, 0xED0, 0xF20, 0x1040, 0x1090, 0x17E0, 0x1810, 0x1946, 0x19D0, 0x1A80, 0x1A90,
   0x1B50, 0x1BB0, 0x1C40, 0x1C50, 0xA620, 0xA8D0, 0xA900, 0xA9D0, 0xA9F0, 0xAA50, 0xABF0,
   0xFF10, 0x104A0, 0x10D30, 0x11066, 0x110F0, 0x11136, 0x111D0, 0x112F0, 0x11450, 0x114D0,
   0x11650, 0x116C0, 0x11730, 0x118E0, 0x11950, 0x11C50, 0x11D50, 0x11DA0, 0x16A60, 0x16AC0,
   0x16B50, 0x1D7CE, 0x1D7D8, 0x1D7E2, 0x1D7EC, 0x1D7F6, 0x1E140, 0x1E2F0, 0x1E950, 0x1FBF0]

/-- The place value of a decimal digit of any script. -/
def digitValue? (c : Char) : Option Nat :=
  (digitZeros.find? fun start => start ≤ c.toNat && c.toNat ≤ start + 9).map (c.toNat - ·)

/-- Whether a character is a decimal digit of some script. -/
def isDigit (c : Char) : Bool :=
  (digitValue? c).isSome

/-- Signs that show a digit without being decimal digits. -/
def digitSigns : Ranges :=
  [(0xB2, 0xB3), (0xB9, 0xB9), (0x1369, 0x1371), (0x19DA, 0x19DA), (0x2070, 0x2070),
   (0x2074, 0x2079), (0x2080, 0x2089), (0x2460, 0x2468), (0x2474, 0x247C), (0x2488, 0x2490),
   (0x24EA, 0x24EA), (0x24F5, 0x24FD), (0x24FF, 0x24FF), (0x2776, 0x277E), (0x2780, 0x2788),
   (0x278A, 0x2792), (0x10A40, 0x10A43), (0x10E60, 0x10E68), (0x11052, 0x1105A),
   (0x1F100, 0x1F10A)]

/-- Whether a character shows a digit: a decimal digit, a superscript, a circled number. -/
def isDigitLike (c : Char) : Bool :=
  isDigit c || digitSigns.has c

/-- The longest run of digits that is converted to a number. -/
def maxDigits : Nat := 4300

/-- Why a run of characters is no number. -/
inductive NumeralError where
  /-- There is no character at all, or one of them is not a decimal digit. -/
  | notDecimal
  /-- There are more than `maxDigits` digits. -/
  | tooLong
  deriving Repr, DecidableEq

/-- The number written by decimal digits, the most significant first. -/
def digitsValue : List Char → Nat → Option Nat
  | [], acc => some acc
  | c :: cs, acc => (digitValue? c).bind fun d => digitsValue cs (10 * acc + d)

/-- Reads a run of decimal digits as a number. -/
def decimal (cs : List Char) : Except NumeralError Nat :=
  if cs.isEmpty then .error .notDecimal
  else match digitsValue cs 0 with
    | none => .error .notDecimal
    | some n => if maxDigits < cs.length then .error .tooLong else .ok n

/-- Digits alone are at fault only by their number. -/
theorem digitsValue_isSome (cs : List Char) (h : ∀ c ∈ cs, isDigit c = true) (acc : Nat) :
    (digitsValue cs acc).isSome = true := by
  induction cs generalizing acc with
  | nil => rfl
  | cons c cs ih =>
    have hc : (digitValue? c).isSome = true := h c (by simp)
    obtain ⟨d, hd⟩ := Option.isSome_iff_exists.mp hc
    simp only [digitsValue, hd, Option.bind_some]
    exact ih (fun x hx => h x (by simp [hx])) _

end Manifest.Text
