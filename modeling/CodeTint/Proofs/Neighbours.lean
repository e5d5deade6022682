import CodeTint.Proofs.Borders

/-!
# Which tokens stand next to each other

Runs of whitespace and words are taken whole, so no two of them follow each other. A line comment
and a directive leave their newline to the whitespace behind them. In front of a word there is a
letter, a digit or an underscore only where a number stops early, or behind a digit that no rule
has taken.
-/

namespace CodeTint

namespace Token

open Scan Text

/-- The token is a word, reserved or not. -/
def IsWord (token : Token) : Prop :=
  token.kind = .keyword ∨ token.kind = .identifier

/-- Two tokens that may follow each other. -/
structure Adjacent (first second : Token) : Prop where
  /-- Whitespace does not follow whitespace. -/
  spaces : first.kind = .whitespace → second.kind ≠ .whitespace
  /-- A word does not follow a word. -/
  words : first.IsWord → ¬ second.IsWord
  /-- Behind a line comment or a directive there is whitespace that begins with a newline. -/
  lines : first.kind = .lineComment ∨ first.kind = .directive →
    second.kind = .whitespace ∧ second.text.head? = some '\n'

/-- A word between the tokens in front of it and those behind it. -/
structure WholeWord (front : List Token) (token : Token) (behind : List Token) : Prop where
  /-- The word is a keyword when it is reserved. -/
  reserved : token.kind = .keyword ↔ String.ofList token.text ∈ Word.reserved
  /-- Behind the word there is no letter, digit or underscore. -/
  after : ∀ c ∈ (behind.flatMap text).head?, isWordPart c = false
  /-- In front of the word there is one only at the end of a number or as a single digit. -/
  before : ∀ c ∈ (front.flatMap text).getLast?, isWordPart c = true →
    ∃ previous ∈ front.getLast?, previous.kind = .number ∨
      (previous.kind = .other ∧ ∃ d : Char, d.isDigit = true ∧ previous.text = [d])

/-- Words come from one rule. -/
theorem IsWord.ofKind?_kind {token : Token} (h : token.IsWord) :
    Rule.ofKind? token.kind = some .word := by
  rcases h with hkind | hkind
  · rw [hkind]
    rfl
  · rw [hkind]
    rfl

section Step

variable {table : List Rule} {context : Context} {start : Nat} {text : Text}

/-- A character of whitespace begins a token of whitespace. -/
theorem kind_next_of_space (hspace : Rule.whitespace ∈ table) {c : Char} (hc : c ∈ text.head?)
    (h : isSpace c = true) : (next table context start text).kind = .whitespace := by
  have hbegins : Rule.whitespace.Begins text := Or.inr ⟨c, hc, h⟩
  rcases next_cases table context start text with heq | ⟨rule, -, extent, hextent, -, heq⟩
  · have hother := kind_next_eq_other_iff.mp (congrArg Token.kind heq)
    exact absurd trivial (hother .whitespace hspace hbegins)
  · rw [heq]
    rcases (Rule.begins_of_reach? hextent).2.eq_or_word hbegins with rfl | ⟨-, hliteral⟩ | ⟨hword, -⟩
    · rfl
    · exact absurd hliteral (by decide)
    · cases hword

/-- The next token begins with the first character of the text. -/
theorem head?_text_next (htext : text ≠ []) :
    (next table context start text).text.head? = text.head? := by
  obtain ⟨hne, rest, hrest⟩ := text_next table context start htext
  rw [← List.head?_append_of_ne_nil _ hne, hrest]

/-- The next token and the one behind it may follow each other. -/
theorem adjacent_next (hspace : Rule.whitespace ∈ table) (later : Context) (place : Nat)
    (hrest : text.drop (next table context start text).text.length ≠ []) :
    Adjacent (next table context start text)
      (next table later place (text.drop (next table context start text).text.length)) where
  spaces hfirst hsecond := by
    have hbegins := begins_of_kind .whitespace (congrArg Rule.ofKind? hsecond)
    obtain ⟨c, hc, hstarts⟩ := hbegins.exists_starts rfl
    have hspaces : isSpace c = true := hstarts
    have hstops : isSpace c = false :=
      stopsAt_of_kind .whitespace (congrArg Rule.ofKind? hfirst) hc
    rw [hstops] at hspaces
    cases hspaces
  words hfirst hsecond := by
    obtain ⟨c, hc, hstarts⟩ := (begins_of_kind .word hsecond.ofKind?_kind).exists_starts rfl
    have hstops : isWordPart c = false := stopsAt_of_kind .word hfirst.ofKind?_kind hc
    have hpart := isWordPart_of_isWordStart hstarts
    rw [hstops] at hpart
    cases hpart
  lines hfirst := by
    obtain ⟨c, rest, hdrop⟩ := List.exists_cons_of_ne_nil hrest
    have hc : c ∈ (text.drop (next table context start text).text.length).head? := by
      rw [hdrop]
      rfl
    have hnewline : c = '\n' := by
      rcases hfirst with hkind | hkind
      · exact stopsAt_of_kind .lineComment (congrArg Rule.ofKind? hkind) hc
      · exact stopsAt_of_kind .directive (congrArg Rule.ofKind? hkind) hc
    subst hnewline
    exact ⟨kind_next_of_space hspace hc rfl, (head?_text_next hrest).trans hc⟩

/-- The tokens of a run may follow each other. -/
theorem isChain_scan (hspace : Rule.whitespace ∈ table) (context : Context) (start : Nat)
    (text : Text) : (scan table context start text).IsChain Adjacent := by
  induction context, start, text using scan_induction table with
  | nil context start =>
    rw [scan_nil]
    exact List.isChain_nil
  | cons context start text htext ih =>
    rw [scan_of_ne_nil table context start htext, List.isChain_cons]
    refine ⟨fun second hsecond => ?_, ih⟩
    by_cases hrest : text.drop (next table context start text).text.length = []
    · rw [hrest, scan_nil] at hsecond
      cases hsecond
    · rw [scan_of_ne_nil _ _ _ hrest] at hsecond
      obtain rfl := Option.some.inj hsecond
      exact adjacent_next hspace _ _ hrest

/-- A word is a keyword when it is reserved. -/
theorem keyword_iff_reserved (h : (next table context start text).IsWord) :
    (next table context start text).kind = .keyword ↔
      String.ofList (next table context start text).text ∈ Word.reserved := by
  obtain ⟨extent, -, -, heq⟩ := exists_reach_of_kind .word h.ofKind?_kind
  rw [heq]
  dsimp only [Rule.kindOf]
  rw [← List.contains_iff_mem, ← Word.isReserved]
  split
  · next hreserved => exact iff_of_true rfl hreserved
  · next hreserved => exact iff_of_false (by decide) hreserved

end Step

/-- The words of a run are whole. -/
theorem wholeWord_of_split {table : List Rule} {context : Context} {start : Nat} {whole : Text}
    {front behind : List Token} {token : Token} (htable : Rule.word ∈ table)
    (h : scan table context start whole = front ++ token :: behind) (hword : token.IsWord) :
    WholeWord front token behind := by
  obtain ⟨htoken, -⟩ := eq_next_of_split h
  have hnext := hword
  rw [htoken] at hnext
  refine ⟨?_, fun c hc => ?_, fun c hc hpart => ?_⟩
  · have hiff := keyword_iff_reserved hnext
    rw [← htoken] at hiff
    exact hiff
  · have hstops := stopsAt_of_kind .word (c := c) hnext.ofKind?_kind
    rw [← htoken, List.drop_left] at hstops
    exact hstops hc
  · obtain ⟨d, hd, hstarts⟩ := (begins_of_kind .word hnext.ofKind?_kind).exists_starts rfl
    obtain ⟨init, previous, rfl, -, -, hprevious⟩ :=
      exists_previous_of_border htable h hc hd hpart (isWordPart_of_isWordStart hstarts)
    refine ⟨previous, List.getLast?_concat, hprevious.imp_right fun hother => ?_⟩
    exact ⟨hother.1, c, hother.2.2, hother.2.1⟩

/-- No two words and no two runs of whitespace follow each other, and behind a line comment or a
directive there is nothing or whitespace that begins with a newline. Every word is a keyword when
it is reserved. No letter, digit or underscore stands behind it, and none in front of it but at the
end of a number or as a single digit that no rule has taken. -/
theorem lex_neighbours (attributes : Bool) (text : Text) :
    (lex attributes text).IsChain Adjacent ∧
      ∀ front token behind, lex attributes text = front ++ token :: behind → token.IsWord →
        WholeWord front token behind := by
  have hspace : Rule.whitespace ∈ Rule.inForce attributes Rule.all :=
    Rule.mem_inForce (by decide)
  have hword : Rule.word ∈ Rule.inForce attributes Rule.all := Rule.mem_inForce (by decide)
  exact ⟨isChain_scan hspace .start 0 text,
    fun front token behind h htoken => wholeWord_of_split hword h htoken⟩

/-- Behind a number with a suffix a digit stands alone, and a word starts right behind the digit. -/
theorem lex_neighbours_digit :
    (lex true "1u2x//é\n if".toList).IsChain Adjacent ∧
      WholeWord [⟨some .number, .number, 0, ['1', 'u'], true⟩, ⟨none, .other, 2, ['2'], true⟩]
        ⟨some .word, .identifier, 3, ['x'], true⟩
        [⟨some .lineComment, .lineComment, 4, ['/', '/', 'é'], true⟩,
          ⟨some .whitespace, .whitespace, 8, ['\n', ' '], true⟩,
          ⟨some .word, .keyword, 10, ['i', 'f'], true⟩] := by
  obtain ⟨hchain, hwords⟩ := lex_neighbours true "1u2x//é\n if".toList
  have hword : IsWord ⟨some .word, .identifier, 3, ['x'], true⟩ := Or.inr rfl
  exact ⟨hchain, hwords _ _ _ (by decide +kernel) hword⟩

end Token

end CodeTint
