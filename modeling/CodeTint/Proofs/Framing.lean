import CodeTint.Command.Run

/-!
# Output is framed by newlines

What is written as JSON stays on one line, whatever the texts in it hold: no newline comes out of
an escaped string, a number or an object made of such values. A newline behind each of them is
therefore the only one.
-/

namespace CodeTint

namespace Text

/-- A number is written with digits only. -/
theorem isDigit_of_mem_digits {n : Nat} {c : Char} (h : c ∈ digits n) : c.isDigit = true :=
  Nat.isDigit_of_mem_toDigits (by decide) (by decide) h

/-- A number is written without any character that is no digit. -/
theorem not_mem_digits {c : Char} (hc : c.isDigit = false) (n : Nat) : c ∉ digits n := by
  intro h
  rw [isDigit_of_mem_digits h] at hc
  cases hc

/-- A number is found again from its digits. -/
theorem digits_inj {m n : Nat} (h : digits m = digits n) : m = n := by
  have hvalues : Nat.ofDigitChars 10 (digits m) 0 = Nat.ofDigitChars 10 (digits n) 0 := by
    rw [h]
  rwa [digits, digits, Nat.ofDigitChars_toDigits (by decide) (by decide),
    Nat.ofDigitChars_toDigits (by decide) (by decide)] at hvalues

/-- The number and what follows it are found again where a mark that is no digit is between them. -/
theorem eq_of_digits_append {m n : Nat} {mark : Char} (hmark : mark.isDigit = false)
    {first second : Text} (h : digits m ++ mark :: first = digits n ++ mark :: second) :
    m = n ∧ first = second := by
  have hdigits : ∀ (k : Nat) (rest : Text),
      (digits k ++ mark :: rest).takeWhile Char.isDigit = digits k := by
    intro k rest
    rw [List.takeWhile_append_of_pos fun c => isDigit_of_mem_digits,
      List.takeWhile_cons_of_neg (by rw [hmark]; exact Bool.false_ne_true), List.append_nil]
  have hsame : digits m = digits n := by
    rw [← hdigits m first, h, hdigits]
  rw [hsame, List.append_cancel_left_eq, List.cons.injEq] at h
  exact ⟨digits_inj hsame, h.2⟩

/-- The digits of a number hold no newline. -/
theorem newline_not_mem_digits (n : Nat) : '\n' ∉ digits n :=
  not_mem_digits rfl n

end Text

namespace Json

/-- No hexadecimal digit is a newline. -/
theorem hexDigit_ne_newline {n : Nat} (h : n < 16) : hexDigit n ≠ '\n' := by
  have hall : ∀ n < 16, hexDigit n ≠ '\n' := by
    decide
  exact hall n h

/-- No character is written with a newline. -/
theorem newline_not_mem_writeChar (c : Char) : '\n' ∉ writeChar c := by
  rw [writeChar]
  split
  · decide
  · split
    · decide
    · split
      · next hlow =>
        split
        · next letter meaning hfind =>
          have hletters : ∀ entry ∈ escapeLetters, '\n' ∉ ['\\', entry.1] := by
            decide
          exact hletters _ (List.mem_of_find?_eq_some hfind)
        · have hfirst : hexDigit (c.toNat / 16) ≠ '\n' := hexDigit_ne_newline (by omega)
          have hsecond : hexDigit (c.toNat % 16) ≠ '\n' := hexDigit_ne_newline (by omega)
          simp only [List.mem_cons, List.not_mem_nil, or_false, not_or]
          exact ⟨by decide, by decide, by decide, by decide, hfirst.symm, hsecond.symm⟩
      · next hhigh =>
        rw [List.mem_singleton]
        rintro rfl
        exact hhigh (by decide)

/-- A written string stays on one line. -/
theorem newline_not_mem_writeString (text : Text) : '\n' ∉ writeString text := by
  simp only [writeString, List.mem_append, List.mem_flatMap, List.mem_singleton, not_or,
    not_exists, not_and]
  exact ⟨⟨by decide, fun c _ => newline_not_mem_writeChar c⟩, by decide⟩

/-- What stands in a list with a mark between its pieces is a piece or the mark. -/
theorem eq_or_mem_of_mem_intersperse {mark piece : Text} {pieces : List Text}
    (h : piece ∈ pieces.intersperse mark) : piece = mark ∨ piece ∈ pieces := by
  induction pieces with
  | nil => exact Or.inr h
  | cons first rest ih =>
    cases rest with
    | nil => exact Or.inr h
    | cons second rest =>
      rw [List.intersperse_cons_cons, List.mem_cons, List.mem_cons] at h
      rcases h with rfl | rfl | h
      · exact Or.inr List.mem_cons_self
      · exact Or.inl rfl
      · exact (ih h).imp_right (List.mem_cons_of_mem _)

/-- An object stays on one line when its values do. -/
theorem newline_not_mem_writeObject {entries : List (String × Text)}
    (h : ∀ entry ∈ entries, '\n' ∉ entry.2) : '\n' ∉ writeObject entries := by
  have hentry : ∀ entry ∈ entries, '\n' ∉ writeEntry entry := by
    intro entry hmem
    simp only [writeEntry, List.mem_append, List.mem_singleton, not_or]
    exact ⟨⟨newline_not_mem_writeString _, by decide⟩, h entry hmem⟩
  have hpieces : ∀ piece ∈ (entries.map writeEntry).intersperse [','], '\n' ∉ piece := by
    intro piece hpiece
    rcases eq_or_mem_of_mem_intersperse hpiece with rfl | hmem
    · decide
    · obtain ⟨entry, hentries, rfl⟩ := List.mem_map.mp hmem
      exact hentry entry hentries
  simp only [writeObject, List.mem_append, List.mem_singleton, List.mem_flatten, not_or,
    not_exists, not_and]
  exact ⟨⟨by decide, hpieces⟩, by decide⟩

end Json

namespace Command

/-- A span is written on one line. -/
theorem newline_not_mem_spanJson (span : Span) : '\n' ∉ spanJson span := by
  refine Json.newline_not_mem_writeObject fun entry hentry => ?_
  simp only [List.mem_cons, List.not_mem_nil, or_false] at hentry
  rcases hentry with rfl | rfl <;> exact Text.newline_not_mem_digits _

/-- A diagnostic is written on one line, whatever the name of its source holds. -/
theorem newline_not_mem_diagnosticJson (file : Source.File) (diagnostic : Diagnostic) :
    '\n' ∉ diagnosticJson file diagnostic := by
  refine Json.newline_not_mem_writeObject fun entry hentry => ?_
  simp only [List.mem_cons, List.not_mem_nil, or_false] at hentry
  rcases hentry with rfl | rfl | rfl | rfl | rfl
  · cases diagnostic.code with
    | none => decide
    | some code => exact Json.newline_not_mem_writeString _
  · exact Json.newline_not_mem_writeString _
  · exact Json.newline_not_mem_writeString _
  · exact Json.newline_not_mem_writeString _
  · cases diagnostic.span with
    | none => decide
    | some span => exact newline_not_mem_spanJson span

end Command

end CodeTint
