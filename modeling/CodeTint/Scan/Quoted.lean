import CodeTint.Scan.Extent

/-!
# String and character literals

A literal opens with an optional encoding prefix directly followed by its quote. From there a
backslash takes the next character with it whatever that is, and the first quote met otherwise
closes the literal. A literal without such a quote takes the rest of the text.
-/

namespace CodeTint.Scan.Quoted

/-- Encoding prefixes that may stand before a quote. -/
def encodings : List Text :=
  [[], ['u', '8'], ['L'], ['u'], ['U']]

/-- Number of characters of the opener, prefix and quote, when the text starts with one. -/
def openerLength? (quote : Char) (text : Text) : Option Nat :=
  (encodings.find? fun encoding => (encoding ++ [quote]).isPrefixOf text).map (·.length + 1)

/-- Reach of a literal whose body starts here, with the characters taken so far. -/
def bodyFrom (quote : Char) (taken : Nat) : Text → Extent
  | [] => ⟨taken, false⟩
  | c :: rest =>
    if c = quote then ⟨taken + 1, true⟩
    else if c = '\\' then
      match rest with
      | [] => ⟨taken + 1, false⟩
      | _ :: rest => bodyFrom quote (taken + 2) rest
    else bodyFrom quote (taken + 1) rest

/-- Reach of the literal with this quote that starts the text. -/
def scan? (quote : Char) (text : Text) : Option Extent :=
  (openerLength? quote text).map fun opener => bodyFrom quote opener (text.drop opener)

/-- An opener has at least the quote and lies inside the text. -/
theorem openerLength?_bound {quote : Char} {text : Text} {opener : Nat}
    (h : openerLength? quote text = some opener) : 0 < opener ∧ opener ≤ text.length := by
  simp only [openerLength?, Option.map_eq_some_iff] at h
  obtain ⟨encoding, hfind, rfl⟩ := h
  have hp : (encoding ++ [quote]).isPrefixOf text = true := List.find?_some
    (p := fun encoding => (encoding ++ [quote]).isPrefixOf text) hfind
  have hl := (List.isPrefixOf_iff_prefix.mp hp).length_le
  simp only [List.length_append, List.length_cons, List.length_nil] at hl
  omega

/-- A body takes no character back, none beyond the end, and all of them when it stays open. -/
theorem bodyFrom_bound (quote : Char) (taken : Nat) (text : Text) :
    taken ≤ (bodyFrom quote taken text).length ∧
    (bodyFrom quote taken text).length ≤ taken + text.length ∧
    ((bodyFrom quote taken text).closed = false →
      (bodyFrom quote taken text).length = taken + text.length) := by
  fun_induction bodyFrom quote taken text with
  | case1 taken => exact ⟨Nat.le_refl _, Nat.le_refl _, fun _ => rfl⟩
  | case2 taken rest =>
    simp only [List.length_cons]
    exact ⟨by omega, by omega, nofun⟩
  | case3 taken => exact ⟨Nat.le_succ _, Nat.le_refl _, fun _ => rfl⟩
  | case4 taken c rest _ ih =>
    simp only [List.length_cons]
    exact ⟨by omega, by omega, fun hc => by have := ih.2.2 hc; omega⟩
  | case5 taken c rest _ _ ih =>
    simp only [List.length_cons]
    exact ⟨by omega, by omega, fun hc => by have := ih.2.2 hc; omega⟩

/-- A literal fits the text it starts. -/
theorem scan?_fits {quote : Char} {text : Text} {extent : Extent}
    (h : scan? quote text = some extent) : extent.Fits text := by
  simp only [scan?, Option.map_eq_some_iff] at h
  obtain ⟨opener, hopener, rfl⟩ := h
  have ho := openerLength?_bound hopener
  have hb := bodyFrom_bound quote opener (text.drop opener)
  simp only [List.length_drop] at hb
  exact ⟨by omega, by omega, fun hc => by have := hb.2.2 hc; omega⟩

end CodeTint.Scan.Quoted
