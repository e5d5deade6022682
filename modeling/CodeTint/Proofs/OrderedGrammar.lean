import CodeTint.Text.Basic

/-!
# Grammars with priorities

A grammar with priorities says in which order things are tried. Of two alternatives the second is
tried only where the first fails, and a repetition goes on as long as its item can be read and never
takes an item back. Such a grammar reads a text in one way at most: it leaves a rest of the text, or
it fails.
-/

namespace CodeTint.Grammar

/-- What a grammar of one recursive rule is made of. -/
inductive Expression where
  /-- Any one character. -/
  | anyChar
  /-- Some characters in sequence. -/
  | literal (word : Text)
  /-- One thing and then another. -/
  | inTurn (first last : Expression)
  /-- One thing, or another where the first fails. -/
  | orElse (first last : Expression)
  /-- One thing as often as it can be read. -/
  | many (item : Expression)
  /-- Nothing, where a thing cannot be read. -/
  | absent (item : Expression)
  /-- The rule itself. -/
  | recur
deriving DecidableEq, Repr

/-- How an expression of a grammar with this rule reads a text: it leaves a rest of the text, or it
fails and leaves none. -/
inductive Reads (rule : Expression) : Expression → Text → Option Text → Prop where
  /-- One character is there. -/
  | anyChar (c : Char) (rest : Text) : Reads rule .anyChar (c :: rest) (some rest)
  /-- No character is left. -/
  | anyChar_fails : Reads rule .anyChar [] none
  /-- The text begins with the characters. -/
  | literal (word rest : Text) : Reads rule (.literal word) (word ++ rest) (some rest)
  /-- The text does not begin with them. -/
  | literal_fails {word text : Text} : ¬ word <+: text → Reads rule (.literal word) text none
  /-- The second thing is read behind the first. -/
  | inTurn {first last : Expression} {text middle : Text} {result : Option Text} :
      Reads rule first text (some middle) → Reads rule last middle result →
        Reads rule (.inTurn first last) text result
  /-- Without the first thing the second is not tried. -/
  | inTurn_fails {first last : Expression} {text : Text} :
      Reads rule first text none → Reads rule (.inTurn first last) text none
  /-- The first alternative is read, and the second is not tried. -/
  | orElse_first {first last : Expression} {text rest : Text} :
      Reads rule first text (some rest) → Reads rule (.orElse first last) text (some rest)
  /-- The first alternative fails, and the second decides. -/
  | orElse_last {first last : Expression} {text : Text} {result : Option Text} :
      Reads rule first text none → Reads rule last text result →
        Reads rule (.orElse first last) text result
  /-- The item is read once more. -/
  | many_more {item : Expression} {text middle : Text} {result : Option Text} :
      Reads rule item text (some middle) → Reads rule (.many item) middle result →
        Reads rule (.many item) text result
  /-- The item cannot be read any more. -/
  | many_stops {item : Expression} {text : Text} :
      Reads rule item text none → Reads rule (.many item) text (some text)
  /-- The thing cannot be read here. -/
  | absent {item : Expression} {text : Text} :
      Reads rule item text none → Reads rule (.absent item) text (some text)
  /-- The thing can be read here. -/
  | absent_fails {item : Expression} {text rest : Text} :
      Reads rule item text (some rest) → Reads rule (.absent item) text none
  /-- The rule itself is read. -/
  | recur {text : Text} {result : Option Text} :
      Reads rule rule text result → Reads rule .recur text result

variable {rule : Expression}

/-- A text is read in one way at most. -/
theorem Reads.unique {expression : Expression} {text : Text} {result other : Option Text}
    (h : Reads rule expression text result) (hother : Reads rule expression text other) :
    result = other := by
  induction h generalizing other with
  | anyChar c rest =>
    cases hother
    rfl
  | anyChar_fails =>
    cases hother
    rfl
  | literal word rest =>
    generalize htext : word ++ rest = text at hother
    cases hother with
    | literal _ other => rw [List.append_cancel_left htext]
    | literal_fails hbegin => exact absurd ⟨rest, htext⟩ hbegin
  | literal_fails hbegin =>
    cases hother with
    | literal _ rest => exact absurd (List.prefix_append _ rest) hbegin
    | literal_fails => rfl
  | inTurn _ _ ihfirst ihlast =>
    cases hother with
    | inTurn hfirst hlast =>
      cases ihfirst hfirst
      exact ihlast hlast
    | inTurn_fails hfirst => cases ihfirst hfirst
  | inTurn_fails _ ihfirst =>
    cases hother with
    | inTurn hfirst _ => cases ihfirst hfirst
    | inTurn_fails => rfl
  | orElse_first _ ihfirst =>
    cases hother with
    | orElse_first hfirst => exact ihfirst hfirst
    | orElse_last hfirst _ => cases ihfirst hfirst
  | orElse_last _ _ ihfirst ihlast =>
    cases hother with
    | orElse_first hfirst => cases ihfirst hfirst
    | orElse_last _ hlast => exact ihlast hlast
  | many_more _ _ ihitem ihmore =>
    cases hother with
    | many_more hitem hmore =>
      cases ihitem hitem
      exact ihmore hmore
    | many_stops hitem => cases ihitem hitem
  | many_stops _ ihitem =>
    cases hother with
    | many_more hitem _ => cases ihitem hitem
    | many_stops => rfl
  | absent _ ihitem =>
    cases hother with
    | absent => rfl
    | absent_fails hitem => cases ihitem hitem
  | absent_fails _ ihitem =>
    cases hother with
    | absent hitem => cases ihitem hitem
    | absent_fails => rfl
  | recur _ ih =>
    cases hother with
    | recur hrule => exact ih hrule

end CodeTint.Grammar
