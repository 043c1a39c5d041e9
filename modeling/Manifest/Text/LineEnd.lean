/-!
Line ends: carriage returns, alone or with a line feed, and line feeds.
-/

set_option autoImplicit false

namespace Manifest.Text

/-- Line ends of every kind as single line feeds. -/
def unifyLineEnds : List Char → List Char
  | [] => []
  | '\r' :: '\n' :: cs => '\n' :: unifyLineEnds cs
  | c :: cs => (if c == '\r' then '\n' else c) :: unifyLineEnds cs

/-- Text without carriage returns keeps its line ends. -/
theorem unifyLineEnds_eq_self {cs : List Char} (h : ∀ c ∈ cs, c ≠ '\r') :
    unifyLineEnds cs = cs := by
  induction cs with
  | nil => rfl
  | cons c cs ih =>
    have hc : c ≠ '\r' := h c (by simp)
    rw [unifyLineEnds]
    · simp [hc, ih fun x hx => h x (by simp [hx])]
    · intro rest hr
      exact absurd hr hc

end Manifest.Text
