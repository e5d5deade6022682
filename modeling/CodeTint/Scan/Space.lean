import CodeTint.Scan.Extent
import CodeTint.Text.CharClass

/-!
# Whitespace

Whitespace is taken in whole runs.
-/

namespace CodeTint.Scan.Space

/-- Reach of the run of whitespace that starts the text. -/
def scan? (text : Text) : Option Extent :=
  let length := Text.runLength Text.isSpace text
  if 0 < length then some (.ended length) else none

/-- A run of whitespace fits the text it starts. -/
theorem scan?_fits {text : Text} {extent : Extent} (h : scan? text = some extent) :
    extent.Fits text := by
  simp only [scan?] at h
  split at h
  · next hpos =>
    simp only [Option.some.injEq] at h
    subst h
    exact Extent.fits_ended hpos (Text.runLength_le _ _)
  · exact nomatch h

end CodeTint.Scan.Space
