import CodeTint.Scan.Extent

/-!
# Attributes

An attribute opens with a double bracket and closes with the double bracket that matches it.
Openers inside are counted, pairs are taken from the left, and an attribute whose pairs do not
balance takes the rest of the text.
-/

namespace CodeTint.Scan.Attribute

/-- Reach of an attribute whose body starts here, with the number of attributes open around the
innermost one and the characters taken so far. -/
def bodyFrom (outer taken : Nat) : Text → Extent
  | [] => ⟨taken, false⟩
  | '[' :: '[' :: rest => bodyFrom (outer + 1) (taken + 2) rest
  | ']' :: ']' :: rest =>
    match outer with
    | 0 => ⟨taken + 2, true⟩
    | outer + 1 => bodyFrom outer (taken + 2) rest
  | _ :: rest => bodyFrom outer (taken + 1) rest

/-- Reach of the attribute that starts the text. -/
def scan? (text : Text) : Option Extent :=
  match text with
  | '[' :: '[' :: body => some (bodyFrom 0 2 body)
  | _ => none

/-- A body takes no character back, none beyond the end, and all of them when it stays open. -/
theorem bodyFrom_bound (outer taken : Nat) (text : Text) :
    taken ≤ (bodyFrom outer taken text).length ∧
    (bodyFrom outer taken text).length ≤ taken + text.length ∧
    ((bodyFrom outer taken text).closed = false →
      (bodyFrom outer taken text).length = taken + text.length) := by
  fun_induction bodyFrom outer taken text with
  | case1 => exact ⟨Nat.le_refl _, Nat.le_refl _, fun _ => rfl⟩
  | case2 outer taken rest ih =>
    simp only [List.length_cons]
    exact ⟨by omega, by omega, fun hc => by have := ih.2.2 hc; omega⟩
  | case3 taken rest =>
    simp only [List.length_cons]
    exact ⟨by omega, by omega, nofun⟩
  | case4 taken rest outer ih =>
    simp only [List.length_cons]
    exact ⟨by omega, by omega, fun hc => by have := ih.2.2 hc; omega⟩
  | case5 outer taken c rest _ _ ih =>
    simp only [List.length_cons]
    exact ⟨by omega, by omega, fun hc => by have := ih.2.2 hc; omega⟩

/-- An attribute fits the text it starts. -/
theorem scan?_fits {text : Text} {extent : Extent} (h : scan? text = some extent) :
    extent.Fits text := by
  simp only [scan?] at h
  split at h
  · next body =>
    simp only [Option.some.injEq] at h
    subst h
    have hb := bodyFrom_bound 0 2 body
    exact ⟨by omega, by simp only [List.length_cons]; omega,
      fun hc => by have := hb.2.2 hc; simp only [List.length_cons]; omega⟩
  · exact nomatch h

end CodeTint.Scan.Attribute
