import CodeTint.Scan.Extent

/-!
# Comments

A line comment runs up to the newline and leaves it to the next token. A block comment closes at
the first terminator behind its two-character opener, so the opener's star never closes it.
-/

namespace CodeTint.Scan.Comment

/-- Reach of the line comment that starts the text. -/
def line? (text : Text) : Option Extent :=
  match text with
  | '/' :: '/' :: _ => some (.ended (Text.runLength (· ≠ '\n') text))
  | _ => none

/-- Reach of the block comment that starts the text. -/
def block? (text : Text) : Option Extent :=
  match text with
  | '/' :: '*' :: body =>
    some <| match Text.indexOf? ['*', '/'] body with
      | some inner => .ended (inner + 4)
      | none => .openEnded text
  | _ => none

/-- A line comment fits the text it starts. -/
theorem line?_fits {text : Text} {extent : Extent} (h : line? text = some extent) :
    extent.Fits text := by
  simp only [line?] at h
  split at h
  · next rest =>
    simp only [Option.some.injEq] at h
    subst h
    refine Extent.fits_ended ?_ (Text.runLength_le _ _)
    simp [Text.runLength]
  · exact nomatch h

/-- A block comment fits the text it starts. -/
theorem block?_fits {text : Text} {extent : Extent} (h : block? text = some extent) :
    extent.Fits text := by
  simp only [block?] at h
  split at h
  · next body =>
    simp only [Option.some.injEq] at h
    subst h
    split
    · next inner hinner =>
      have hb := Text.indexOf?_bound hinner
      simp only [List.length_cons, List.length_nil] at hb
      exact Extent.fits_ended (by omega) (by simp only [List.length_cons]; omega)
    · exact Extent.fits_openEnded (by simp only [List.length_cons]; omega)
  · exact nomatch h

end CodeTint.Scan.Comment
