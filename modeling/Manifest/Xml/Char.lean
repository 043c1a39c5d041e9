import Manifest.Text.Ranges

/-!
Characters of markup: which may occur in a document at all, which separate the parts of a tag, and
which make up names.
-/

set_option autoImplicit false

namespace Manifest.Xml

open Text (Ranges)

/-- Code points that may occur in a document. -/
def documentChars : Ranges :=
  [(0x9, 0xA), (0xD, 0xD), (0x20, 0xD7FF), (0xE000, 0xFFFD), (0x10000, 0x10FFFF)]

/-- Whether a character may occur in a document. -/
def isChar (c : Char) : Bool :=
  documentChars.has c

/-- Whether a character separates the parts of a tag: space, tab or a line end. -/
def isSpace (c : Char) : Bool :=
  c == ' ' || c == '\t' || c == '\n' || c == '\r'

/-- Code points that may begin a name, the colon left out. -/
def nameStarts : Ranges :=
  [(0x41, 0x5A), (0x5F, 0x5F), (0x61, 0x7A), (0xC0, 0xD6), (0xD8, 0xF6), (0xF8, 0x2FF),
   (0x370, 0x37D), (0x37F, 0x1FFF), (0x200C, 0x200D), (0x2070, 0x218F), (0x2C00, 0x2FEF),
   (0x3001, 0xD7FF), (0xF900, 0xFDCF), (0xFDF0, 0xFFFD), (0x10000, 0xEFFFF)]

/-- Code points that may follow in a name but not begin it. -/
def nameFollowers : Ranges :=
  [(0x2D, 0x2E), (0x30, 0x39), (0xB7, 0xB7), (0x300, 0x36F), (0x203F, 0x2040)]

/-- Whether a character may begin a name without colon. -/
def isNameStart (c : Char) : Bool :=
  nameStarts.has c

/-- Whether a character may occur in a name without colon. -/
def isNameChar (c : Char) : Bool :=
  isNameStart c || nameFollowers.has c

/-- Whether a text is a name without colon. -/
def isLocalName : List Char → Bool
  | [] => false
  | c :: cs => isNameStart c && cs.all isNameChar

/-- Whether every character of a text may occur in a document. -/
def isDocumentText (s : String) : Bool :=
  s.toList.all isChar

/-- No separator belongs to a name. -/
theorem isNameChar_of_isSpace {c : Char} (h : isSpace c = true) : isNameChar c = false := by
  simp only [isSpace, Bool.or_eq_true, beq_iff_eq] at h
  rcases h with ((h | h) | h) | h <;> subst h <;> decide

end Manifest.Xml
