import CodeTint.Diagnostic
import CodeTint.Proofs.Run
import Mathlib.Data.List.DropRight

/-!
# A text at another place

The tokens of a text depend on its place only through where they start, whether the line in front
of it is blank, and whether a letter is right in front of it. Moving a text moves its tokens, and
what stands behind a line of blanks is scanned as if nothing were in front of it.
-/

namespace CodeTint

/-- A span moved by a number of bytes. -/
def Span.shift (offset : Nat) (span : Span) : Span :=
  ⟨.ofNat offset + span.start, .ofNat offset + span.stop⟩

/-- A token moved by a number of bytes. -/
def Token.shift (offset : Nat) (token : Token) : Token :=
  { token with start := offset + token.start }

/-- A remark whose place is moved by a number of bytes. -/
def Diagnostic.shift (offset : Nat) (diagnostic : Diagnostic) : Diagnostic :=
  { diagnostic with span := diagnostic.span.map (Span.shift offset) }

/-- What is behind the last newline of a text, all of it if it has none. -/
def Text.lastLine (text : Text) : Text :=
  text.rtakeWhile (· ≠ '\n')

namespace Scan

/-- Two contexts that no rule tells apart. -/
structure Context.Alike (first last : Context) : Prop where
  /-- Both have a blank line in front or neither has. -/
  lineBlank : first.lineBlank = last.lineBlank
  /-- Both are behind a letter or neither is. -/
  behindLetter : first.behindLetter = last.behindLetter

/-- Contexts stay alike behind the same character. -/
theorem Context.Alike.push {first last : Context} (h : first.Alike last) (c : Char) :
    (first.push c).Alike (last.push c) := by
  constructor
  · rw [Context.push, Context.push, h.lineBlank]
  · rfl

/-- Contexts stay alike behind the same text. -/
theorem Context.Alike.after {first last : Context} (h : first.Alike last) (text : Text) :
    (first.after text).Alike (last.after text) := by
  induction text generalizing first last with
  | nil => exact h
  | cons c rest ih => exact ih (h.push c)

/-- Behind a newline the context does not depend on what was in front of it. -/
theorem Context.after_newline (first last : Context) (rest : Text) :
    first.after ('\n' :: rest) = last.after ('\n' :: rest) := rfl

/-- Whether only blanks stand on the current line is read off its text. -/
theorem Context.lineBlank_after_start (text : Text) :
    (start.after text).lineBlank = text.lastLine.all Text.isBlank := by
  induction text using List.reverseRecOn with
  | nil => rfl
  | append_singleton front c ih =>
    have hpush : (start.after (front ++ [c])).lineBlank =
        (decide (c = '\n') || ((start.after front).lineBlank && Text.isBlank c)) := by
      rw [after_append]
      rfl
    rw [hpush, ih, Text.lastLine, Text.lastLine, List.rtakeWhile_concat]
    by_cases hc : c = '\n'
    · simp [hc]
    · simp [hc]

/-- A blank line in front has no letter at its end. -/
theorem Context.behindLetter_of_lineBlank {text : Text}
    (h : (start.after text).lineBlank = true) : (start.after text).behindLetter = false := by
  induction text using List.reverseRecOn with
  | nil => rfl
  | append_singleton front c _ =>
    rw [after_append] at h ⊢
    change (decide (c = '\n') || ((start.after front).lineBlank && Text.isBlank c)) = true at h
    change Text.isWordStart c = false
    simp only [Text.isBlank, Bool.or_eq_true, Bool.and_eq_true, decide_eq_true_eq] at h
    rcases h with rfl | ⟨_, rfl | rfl⟩ <;> decide

/-- Behind a line of blanks the context is like the one at the start. -/
theorem Context.alike_start {text : Text} (h : text.lastLine.all Text.isBlank = true) :
    (start.after text).Alike start := by
  rw [← lineBlank_after_start] at h
  exact ⟨h, behindLetter_of_lineBlank h⟩

/-- Every rule gives the same answer in alike contexts. -/
theorem Rule.scan?_congr {first last : Context} (h : first.Alike last) (rule : Rule)
    (text : Text) : rule.scan? first text = rule.scan? last text := by
  cases rule <;> simp only [scan?, h.lineBlank, h.behindLetter]

/-- The first answer is the same in alike contexts. -/
theorem firstMatch?_congr {first last : Context} (h : first.Alike last) (table : List Rule)
    (text : Text) : firstMatch? table first text = firstMatch? table last text := by
  simp only [firstMatch?, Rule.scan?_congr h]

/-- At a newline the whitespace rule answers first in every context. -/
theorem firstMatch?_newline (attributes : Bool) (first last : Context) (rest : Text) :
    firstMatch? (Rule.inForce attributes Rule.all) first ('\n' :: rest) =
      firstMatch? (Rule.inForce attributes Rule.all) last ('\n' :: rest) := by
  have hspace : Space.scan? ('\n' :: rest) =
      some (.ended (Text.runLength Text.isSpace ('\n' :: rest))) := by
    have hpos := (Text.runLength_cons_pos_iff Text.isSpace '\n' rest).mpr Text.isSpace_newline.1
    rw [Space.scan?, if_pos hpos]
  have hall : Rule.inForce attributes Rule.all =
      .whitespace :: Rule.inForce attributes Rule.all.tail := by
    cases attributes <;> rfl
  have hscan : ∀ context, Rule.whitespace.scan? context ('\n' :: rest) =
      some ⟨.whitespace, .ended (Text.runLength Text.isSpace ('\n' :: rest))⟩ := by
    intro context
    rw [Rule.scan?, hspace, Option.map_some]
  rw [hall, firstMatch?, firstMatch?, List.findSome?_cons, List.findSome?_cons, hscan, hscan]
  rfl

end Scan

namespace Token

open Scan Text

/-- Where the next token starts does not change what it is. -/
theorem next_shift (table : List Rule) (context : Context) (offset start : Nat) (text : Text) :
    next table context (offset + start) text = (next table context start text).shift offset := by
  unfold next
  split <;> rfl

/-- A moved token ends as many bytes later. -/
@[simp] theorem stop_shift (offset : Nat) (token : Token) :
    (token.shift offset).stop = offset + token.stop :=
  Nat.add_assoc _ _ _

/-- A moved token covers the moved bytes. -/
@[simp] theorem span_shift (offset : Nat) (token : Token) :
    (token.shift offset).span = token.span.shift offset := by
  rw [span, stop_shift]
  simp only [Span.ofRange, shift, UInt32.ofNat_add, Span.shift, span]

/-- Moving a text moves its tokens. -/
theorem scan_shift (table : List Rule) (context : Context) (offset start : Nat) (text : Text) :
    scan table context (offset + start) text =
      (scan table context start text).map (shift offset) := by
  induction context, start, text using scan_induction table with
  | nil context start =>
    rw [scan_nil, scan_nil, List.map_nil]
  | cons context start text htext ih =>
    rw [scan_of_ne_nil table context _ htext, scan_of_ne_nil table context start htext,
      List.map_cons, ← ih, next_shift, stop_shift]
    rfl

/-- Alike contexts have the same next token. -/
theorem next_congr {first last : Context} (h : first.Alike last) (table : List Rule)
    (start : Nat) (text : Text) : next table first start text = next table last start text := by
  rw [next, next, firstMatch?_congr h]

/-- Alike contexts have the same tokens in front of them. -/
theorem scan_congr {first last : Context} (h : first.Alike last) (table : List Rule)
    (start : Nat) (text : Text) : scan table first start text = scan table last start text := by
  induction first, start, text using scan_induction table generalizing last with
  | nil first start => rw [scan_nil, scan_nil]
  | cons first start text htext ih =>
    rw [scan_of_ne_nil table first start htext, scan_of_ne_nil table last start htext,
      ih (h.after _), next_congr h]

/-- What follows a newline is scanned the same in every context. -/
theorem scan_newline (attributes : Bool) (first last : Context) (start : Nat) (rest : Text) :
    scan (Rule.inForce attributes Rule.all) first start ('\n' :: rest) =
      scan (Rule.inForce attributes Rule.all) last start ('\n' :: rest) := by
  have htext : '\n' :: rest ≠ [] := List.cons_ne_nil _ _
  have hnext : next (Rule.inForce attributes Rule.all) first start ('\n' :: rest) =
      next (Rule.inForce attributes Rule.all) last start ('\n' :: rest) := by
    rw [next, next, firstMatch?_newline attributes first last rest]
  obtain ⟨hne, hbegin⟩ := text_next (Rule.inForce attributes Rule.all) last start htext
  rw [scan_of_ne_nil _ first start htext, scan_of_ne_nil _ last start htext, hnext]
  cases htoken : (next (Rule.inForce attributes Rule.all) last start ('\n' :: rest)).text with
  | nil => exact absurd htoken hne
  | cons c taken =>
    rw [htoken] at hbegin
    rw [(List.cons_prefix_cons.mp hbegin).1, Context.after_newline first last]

/-- The tokens of a text at another place behind a line of blanks are its tokens moved. -/
theorem scan_after_blank {text : Text} (h : text.lastLine.all isBlank = true)
    (table : List Rule) (offset : Nat) (more : Text) :
    scan table (Context.start.after text) offset more =
      (scan table .start 0 more).map (shift offset) := by
  rw [scan_congr (Context.alike_start h)]
  exact scan_shift table .start offset 0 more

end Token

namespace Diagnostic

/-- The remark about a moved token is the moved remark. -/
theorem ofToken?_shift (offset : Nat) (token : Token) :
    ofToken? (token.shift offset) = (ofToken? token).map (shift offset) := by
  rw [ofToken?, ofToken?, Token.span_shift]
  cases hclosed : token.closed with
  | true => simp [Token.shift, hclosed]
  | false => simp [Token.shift, hclosed, unterminated, withCode, warning, shift]

/-- The remarks about moved tokens are the moved remarks. -/
theorem ofTokens_map_shift (offset : Nat) (tokens : List Token) :
    ofTokens (tokens.map (Token.shift offset)) = (ofTokens tokens).map (shift offset) := by
  rw [ofTokens, ofTokens, List.filterMap_map, List.map_filterMap]
  congr 1
  funext token
  exact ofToken?_shift offset token

/-- The remarks about a run are those about its parts. -/
theorem ofTokens_append (first last : List Token) :
    ofTokens (first ++ last) = ofTokens first ++ ofTokens last :=
  List.filterMap_append

end Diagnostic

end CodeTint
