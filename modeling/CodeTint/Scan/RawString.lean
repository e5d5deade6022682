import CodeTint.Scan.Extent

/-!
# Raw string literals

A raw literal opens with `R"`. Everything up to the first opening parenthesis is its delimiter,
and the first closing parenthesis followed by the delimiter and a quote closes it. Without the
parenthesis or without that terminator the literal takes the rest of the text.
-/

namespace CodeTint.Scan.RawString

/-- The text that closes a raw literal with this delimiter. -/
def terminator (delimiter : Text) : Text :=
  ')' :: delimiter ++ ['"']

/-- Reach of a raw literal from the delimiter on, when it closes. -/
def closeLength? (text : Text) : Option Nat :=
  let delimiter := text.takeWhile (· ≠ '(')
  match text.dropWhile (· ≠ '(') with
  | [] => none
  | _ :: body =>
    (Text.indexOf? (terminator delimiter) body).map fun payload =>
      delimiter.length + 1 + payload + (terminator delimiter).length

/-- Reach of the raw literal that starts the text. -/
def scan? (text : Text) : Option Extent :=
  match text with
  | 'R' :: '"' :: rest =>
    some <| match closeLength? rest with
      | some length => .ended (2 + length)
      | none => .openEnded text
  | _ => none

/-- A closed raw literal lies inside the text. -/
theorem closeLength?_bound {text : Text} {length : Nat} (h : closeLength? text = some length) :
    length ≤ text.length := by
  simp only [closeLength?] at h
  split at h
  · exact nomatch h
  · next opener body hbody =>
    simp only [Option.map_eq_some_iff] at h
    obtain ⟨payload, hp, rfl⟩ := h
    have hb := Text.indexOf?_bound hp
    have hs := congrArg List.length
      (List.takeWhile_append_dropWhile (p := (· ≠ '(')) (l := text))
    rw [hbody] at hs
    simp only [List.length_append, List.length_cons] at hs
    omega

/-- A raw literal fits the text it starts. -/
theorem scan?_fits {text : Text} {extent : Extent} (h : scan? text = some extent) :
    extent.Fits text := by
  simp only [scan?] at h
  split at h
  · next rest =>
    simp only [Option.some.injEq] at h
    subst h
    split
    · next length hlength =>
      have hb := closeLength?_bound hlength
      exact Extent.fits_ended (by omega) (by simp only [List.length_cons]; omega)
    · exact Extent.fits_openEnded (by simp only [List.length_cons]; omega)
  · exact nomatch h

end CodeTint.Scan.RawString
