import CodeTint.Scan.Extent

/-!
# Preprocessor directives

A directive starts with `#` on a line that holds nothing but blanks before it. It runs up to the
first newline that does not directly follow a backslash, and to the end of the text without one.
-/

namespace CodeTint.Scan.Directive

/-- Characters taken when the directive has reached this point behind a character. -/
def lineFrom (previous : Char) (taken : Nat) : Text → Nat
  | [] => taken
  | c :: rest =>
    if c = '\n' ∧ previous ≠ '\\' then taken else lineFrom c (taken + 1) rest

/-- Reach of the directive that starts the text, given whether its line is blank so far. -/
def scan? (lineBlank : Bool) (text : Text) : Option Extent :=
  match text with
  | '#' :: rest => if lineBlank then some (.ended (lineFrom '#' 1 rest)) else none
  | _ => none

/-- A directive takes no character back and none beyond the end. -/
theorem lineFrom_bound (previous : Char) (taken : Nat) (text : Text) :
    taken ≤ lineFrom previous taken text ∧
    lineFrom previous taken text ≤ taken + text.length := by
  induction text generalizing previous taken with
  | nil => exact ⟨Nat.le_refl _, Nat.le_refl _⟩
  | cons c rest ih =>
    have hi := ih c (taken + 1)
    simp only [lineFrom, List.length_cons]
    split <;> omega

/-- A directive fits the text it starts. -/
theorem scan?_fits {lineBlank : Bool} {text : Text} {extent : Extent}
    (h : scan? lineBlank text = some extent) : extent.Fits text := by
  simp only [scan?] at h
  split at h
  · next rest =>
    split at h
    · simp only [Option.some.injEq] at h
      subst h
      have hb := lineFrom_bound '#' 1 rest
      exact Extent.fits_ended (by omega) (by simp only [List.length_cons]; omega)
    · exact nomatch h
  · exact nomatch h

end CodeTint.Scan.Directive
