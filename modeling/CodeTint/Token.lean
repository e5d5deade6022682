import CodeTint.Scan.Rule
import CodeTint.Span

/-!
# Tokens

Tokens cut a text from front to back without gaps. Each one carries its own text, where it starts,
which rule took it, and whether its construct was closed. The next token is chosen by the first
rule of a table that answers; the context behind the token decides together with the text.
-/

namespace CodeTint

open Scan

/-- A piece of text recognized by the scanner. -/
structure Token where
  /-- The rule that answered, none for a single ordinary character. -/
  rule : Option Rule
  /-- What the text is. -/
  kind : Kind
  /-- Number of bytes before the token. -/
  start : Nat
  /-- The text taken. -/
  text : Text
  /-- The construct did not run out of text. -/
  closed : Bool
deriving DecidableEq, Repr

namespace Token

/-- Number of bytes up to and including the token. -/
def stop (token : Token) : Nat :=
  token.start + Text.bytes token.text

/-- The bytes of the token as a span. -/
def span (token : Token) : Span :=
  .ofRange token.start token.stop

/-- The token at the front of a nonempty text, under a table of rules. -/
def next (table : List Rule) (context : Context) (start : Nat) (text : Text) : Token :=
  match firstMatch? table context text with
  | some (rule, found) =>
    ⟨some rule, found.kind, start, text.take found.extent.length, found.extent.closed⟩
  | none => ⟨none, Match.single.kind, start, text.take Match.single.extent.length,
      Match.single.extent.closed⟩

/-- The next token starts where it is asked to. -/
@[simp] theorem start_next (table : List Rule) (context : Context) (start : Nat) (text : Text) :
    (next table context start text).start = start := by
  unfold next
  split <;> rfl

/-- The next token is a nonempty prefix of the text. -/
theorem text_next (table : List Rule) (context : Context) (start : Nat) {text : Text}
    (h : text ≠ []) :
    (next table context start text).text ≠ [] ∧ (next table context start text).text <+: text := by
  have hpos := List.length_pos_iff.mpr h
  unfold next
  split
  · next rule found hfound =>
    have hf := firstMatch?_fits hfound
    refine ⟨?_, List.take_prefix _ _⟩
    have hp := hf.positive
    simp only [ne_eq, List.take_eq_nil_iff, h, or_false]
    omega
  · refine ⟨?_, List.take_prefix _ _⟩
    simp only [ne_eq, List.take_eq_nil_iff, h, or_false]
    exact Nat.one_ne_zero

/-- Behind the next token there is less text. -/
theorem drop_next_length (table : List Rule) (context : Context) (start : Nat) {text : Text}
    (h : text ≠ []) :
    (text.drop (next table context start text).text.length).length < text.length := by
  have hpos := List.length_pos_iff.mpr h
  have ht := List.length_pos_iff.mpr (text_next table context start h).1
  simp only [List.length_drop]
  omega

/-- The tokens of the text that is left, behind those already found in reverse order. -/
def scanOnto (table : List Rule) (found : List Token) (context : Context) (start : Nat)
    (text : Text) : List Token :=
  if _h : text = [] then found.reverse
  else
    let token := next table context start text
    scanOnto table (token :: found) (context.after token.text) token.stop
      (text.drop token.text.length)
termination_by text.length
decreasing_by exact drop_next_length table context start _h

/-- The tokens of a text that starts at a byte offset behind a context. -/
def scan (table : List Rule) (context : Context) (start : Nat) (text : Text) : List Token :=
  scanOnto table [] context start text

/-- The tokens of a whole text under some rules in order of precedence, with or without
attributes. -/
def lexUnder (rules : List Rule) (attributes : Bool) (text : Text) : List Token :=
  scan (Rule.inForce attributes rules) .start 0 text

/-- The tokens of a whole text, with or without attributes. -/
def lex (attributes : Bool) (text : Text) : List Token :=
  lexUnder Rule.all attributes text

/-- Without text left, the tokens found are put in order. -/
theorem scanOnto_nil (table : List Rule) (found : List Token) (context : Context) (start : Nat) :
    scanOnto table found context start [] = found.reverse := by
  simp [scanOnto]

/-- One step of the scan moves the next token behind those already found. -/
theorem scanOnto_of_ne_nil (table : List Rule) (found : List Token) (context : Context)
    (start : Nat) {text : Text} (h : text ≠ []) :
    scanOnto table found context start text =
      scanOnto table (next table context start text :: found)
        (context.after (next table context start text).text)
        (next table context start text).stop
        (text.drop (next table context start text).text.length) := by
  rw [scanOnto, dif_neg h]

/-- Tokens already found stay in front. -/
theorem scanOnto_eq (table : List Rule) (found : List Token) (context : Context) (start : Nat)
    (text : Text) :
    scanOnto table found context start text =
      found.reverse ++ scan table context start text := by
  unfold scan
  induction hn : text.length using Nat.strongRecOn generalizing found context start text with
  | ind n ih =>
    by_cases h : text = []
    · subst h
      rw [scanOnto_nil, scanOnto_nil, List.reverse_nil, List.append_nil]
    · have hlt := drop_next_length table context start h
      rw [hn] at hlt
      rw [scanOnto_of_ne_nil table found context start h,
        scanOnto_of_ne_nil table [] context start h,
        ih _ hlt (_ :: found) _ _ _ rfl, ih _ hlt [_] _ _ _ rfl]
      simp only [List.reverse_cons, List.reverse_nil, List.nil_append, List.append_assoc]

/-- An empty text has no tokens. -/
@[simp] theorem scan_nil (table : List Rule) (context : Context) (start : Nat) :
    scan table context start [] = [] := by
  rw [scan, scanOnto_nil, List.reverse_nil]

/-- The tokens of a text are the next one and those of the text behind it. -/
theorem scan_of_ne_nil (table : List Rule) (context : Context) (start : Nat) {text : Text}
    (h : text ≠ []) :
    scan table context start text =
      next table context start text ::
        scan table (context.after (next table context start text).text)
          (next table context start text).stop
          (text.drop (next table context start text).text.length) := by
  rw [scan, scanOnto_of_ne_nil table [] context start h, scanOnto_eq]
  rfl

/-- The tokens of a text hold the text and nothing else. -/
theorem flatMap_text_scan (table : List Rule) (context : Context) (start : Nat) (text : Text) :
    (scan table context start text).flatMap Token.text = text := by
  induction hn : text.length using Nat.strongRecOn generalizing context start text with
  | ind n ih =>
    by_cases h : text = []
    · rw [h, scan_nil, List.flatMap_nil]
    · have hlt := drop_next_length table context start h
      rw [hn] at hlt
      rw [scan_of_ne_nil table context start h, List.flatMap_cons, ih _ hlt _ _ _ rfl]
      exact (List.prefix_iff_eq_append.mp (text_next table context start h).2)

/-- The tokens of a whole text hold the text and nothing else. -/
theorem flatMap_text_lex (attributes : Bool) (text : Text) :
    (lex attributes text).flatMap Token.text = text :=
  flatMap_text_scan _ _ _ _

end Token

end CodeTint
