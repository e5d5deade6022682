import CodeTint.Proofs.Relocation
import Mathlib.Order.Bounds.Defs

/-!
# Where directives are and where they end

Whether only blanks stand in front of a token on its line is kept up to date token by token, from
what each token takes and nothing else. It agrees with the line itself wherever the run has got to,
so a directive is found exactly at a `#` that has only blanks in front of it on its line. It ends at
the first newline behind it that no backslash continues, and with the text when there is none.
-/

namespace CodeTint

/-- A newline stands at the offset, and no backslash stands directly in front of it. -/
def Text.EndsLine (text : Text) (offset : Nat) : Prop :=
  ∃ front rest, text = front ++ '\n' :: rest ∧ Text.bytes front = offset ∧
    front.getLast? ≠ some '\\'

/-- Of two beginnings of a text the one with more bytes goes on where the other one ends. -/
theorem Text.exists_of_bytes_lt {first last text : Text} (hfirst : first <+: text)
    (hlast : last <+: text) (h : bytes first < bytes last) :
    ∃ c more, last = first ++ c :: more := by
  rcases List.prefix_or_prefix_of_prefix hfirst hlast with ⟨more, rfl⟩ | ⟨more, rfl⟩
  · cases more with
    | nil =>
      rw [List.append_nil] at h
      exact absurd h (Nat.lt_irrefl _)
    | cons c more => exact ⟨c, more, rfl⟩
  · rw [bytes_append] at h
    omega

namespace Scan

/-- The context behind a piece of text, read off the last line of the piece: a newline in it starts
a line, and without one the piece goes on with the line in front of it. -/
def Context.advance (context : Context) (piece : Text) : Context where
  lineBlank :=
    if '\n' ∈ piece then piece.lastLine.all Text.isBlank
    else context.lineBlank && piece.all Text.isBlank
  previous := piece.getLast?.or context.previous

/-- Taking a piece at once leaves the context of taking its characters one after another. -/
theorem Context.advance_eq_after (context : Context) (piece : Text) :
    context.advance piece = context.after piece := by
  induction piece using List.reverseRecOn with
  | nil =>
    simp only [advance, List.not_mem_nil, if_false, List.all_nil, Bool.and_true, List.getLast?_nil,
      Option.none_or]
    rfl
  | append_singleton front c ih =>
    rw [after_append, ← ih]
    change context.advance (front ++ [c]) = (context.advance front).push c
    simp only [advance, push, Text.lastLine, List.rtakeWhile_concat, List.getLast?_concat,
      Option.some_or]
    congr 1
    by_cases hc : c = '\n'
    · simp [hc]
    · by_cases hfront : '\n' ∈ front
      · simp [hc, hfront]
      · simp [hc, hfront, Ne.symm hc, Bool.and_assoc]

/-- A directive is recognized exactly at a `#` on a line that is blank so far. -/
theorem Directive.scan?_eq_some_iff {lineBlank : Bool} {text : Text} {extent : Extent} :
    scan? lineBlank text = some extent ↔
      lineBlank = true ∧ ∃ body, text = '#' :: body ∧ extent = .ended (lineFrom '#' 1 body) := by
  constructor
  · intro h
    unfold scan? at h
    split at h
    · next body =>
      split at h
      · next hblank => exact ⟨hblank, body, rfl, (Option.some.inj h).symm⟩
      · cases h
    · cases h
  · rintro ⟨rfl, body, rfl, rfl⟩
    rfl

/-- A directive takes the newlines that a backslash continues and stops in front of the first one
that none does. -/
theorem Directive.exists_line (previous : Char) (taken : Nat) (text : Text) :
    ∃ line behind, text = line ++ behind ∧ lineFrom previous taken text = taken + line.length ∧
      (∀ front rest, line = front ++ '\n' :: rest →
        (previous :: front).getLast? = some '\\') ∧
      ∀ c ∈ behind.head?, c = '\n' ∧ (previous :: line).getLast? ≠ some '\\' := by
  induction text generalizing previous taken with
  | nil => exact ⟨[], [], rfl, rfl, fun front rest h => by simp at h, fun c hc => nomatch hc⟩
  | cons c rest ih =>
    by_cases hc : c = '\n' ∧ previous ≠ '\\'
    · refine ⟨[], c :: rest, rfl, if_pos hc, fun front rest h => by simp at h, ?_⟩
      intro d hd
      rw [List.head?_cons, Option.mem_some_iff] at hd
      exact ⟨hd ▸ hc.1, fun h => hc.2 (Option.some.inj h)⟩
    · obtain ⟨line, behind, rfl, hlength, hinside, hbehind⟩ := ih c (taken + 1)
      refine ⟨c :: line, behind, rfl, ?_, ?_, ?_⟩
      · rw [lineFrom, if_neg hc, hlength, List.length_cons]
        omega
      · intro front rest h
        cases front with
        | nil =>
          have hnewline := (List.cons.inj h).1
          have hslash : previous = '\\' := by
            by_contra hne
            exact hc ⟨hnewline, hne⟩
          rw [hslash]
          rfl
        | cons d front =>
          rw [List.cons_append, List.cons.injEq] at h
          rw [← h.1, List.getLast?_cons_cons]
          exact hinside front rest h.2
      · intro d hd
        rw [List.getLast?_cons_cons]
        exact hbehind d hd

/-- At a `#` on a line that is blank so far the rule for directives answers first. -/
theorem firstMatch?_directive (attributes : Bool) {context : Context}
    (hblank : context.lineBlank = true) (body : Text) :
    firstMatch? (Rule.inForce attributes Rule.all) context ('#' :: body) =
      some (.directive, ⟨.directive, .ended (Directive.lineFrom '#' 1 body)⟩) := by
  refine firstMatch?_eq_some_iff.mpr
    ⟨Rule.inForce attributes [.whitespace, .attributeSpec, .lineComment, .blockComment],
      [.rawString, .string, .character, .number, .word], ?_, ?_, ?_⟩
  · cases attributes <;> rfl
  · rw [Rule.scan?, Directive.scan?_eq_some_iff.mpr ⟨hblank, body, rfl, rfl⟩]
    rfl
  · intro other hother
    have hmem : other ∈ [Rule.whitespace, .attributeSpec, .lineComment, .blockComment] :=
      List.mem_of_mem_filter hother
    simp only [List.mem_cons, List.not_mem_nil, or_false] at hmem
    rcases hmem with rfl | rfl | rfl | rfl <;> rfl

end Scan

namespace Token

open Scan Text

/-- The context behind some tokens, kept up to date from what each of them takes. -/
def contextBehind (tokens : List Token) : Context :=
  tokens.foldl (fun context token => context.advance token.text) .start

/-- The context kept up to date token by token is that of the text the tokens take. -/
theorem contextBehind_eq (tokens : List Token) :
    contextBehind tokens = Context.start.after (tokens.flatMap text) := by
  rw [contextBehind]
  generalize Context.start = context
  induction tokens generalizing context with
  | nil => rfl
  | cons token tokens ih =>
    rw [List.foldl_cons, ih, List.flatMap_cons, Context.after_append, Context.advance_eq_after]

/-- Behind some of its tokens a run is the run over the text that is left, in the context and at
the byte that the tokens lead to. -/
theorem scan_of_append {table : List Rule} {context : Context} {start : Nat} {whole : Text}
    {taken left : List Token} (h : scan table context start whole = taken ++ left) :
    left = scan table (context.after (taken.flatMap text)) (start + bytes (taken.flatMap text))
      (left.flatMap text) := by
  induction taken generalizing context start whole with
  | nil =>
    rw [List.nil_append] at h
    rw [← h, flatMap_text_scan]
    rfl
  | cons token taken ih =>
    by_cases hwhole : whole = []
    · rw [hwhole, scan_nil] at h
      cases h
    · rw [scan_of_ne_nil table context start hwhole, List.cons_append, List.cons.injEq] at h
      obtain ⟨rfl, h⟩ := h
      have hleft := ih h
      rw [stop, start_next, Nat.add_assoc, ← bytes_append, ← Context.after_append] at hleft
      exact hleft

/-- The next token is a directive exactly at a `#` on a line that is blank so far. -/
theorem kind_next_eq_directive_iff (attributes : Bool) (context : Context) (start : Nat)
    (text : Text) :
    (next (Rule.inForce attributes Rule.all) context start text).kind = .directive ↔
      text.head? = some '#' ∧ context.lineBlank = true := by
  constructor
  · intro h
    obtain ⟨extent, hextent, -, -⟩ := exists_reach_of_kind .directive (congrArg Rule.ofKind? h)
    obtain ⟨hblank, body, rfl, -⟩ := Directive.scan?_eq_some_iff.mp hextent
    exact ⟨rfl, hblank⟩
  · rintro ⟨hhead, hblank⟩
    obtain ⟨body, rfl⟩ := List.head?_eq_some_iff.mp hhead
    rw [next_of_some start (firstMatch?_directive attributes hblank body)]

/-- A directive takes its `#` and a line behind it. -/
theorem exists_line_of_directive (attributes : Bool) {context : Context} {start : Nat}
    {text : Text}
    (h : (next (Rule.inForce attributes Rule.all) context start text).kind = .directive) :
    ∃ line behind, text = '#' :: line ++ behind ∧
      (next (Rule.inForce attributes Rule.all) context start text).text = '#' :: line ∧
      (∀ front rest, line = front ++ '\n' :: rest → ('#' :: front).getLast? = some '\\') ∧
      ∀ c ∈ behind.head?, c = '\n' ∧ ('#' :: line).getLast? ≠ some '\\' := by
  obtain ⟨hhead, hblank⟩ := (kind_next_eq_directive_iff attributes context start text).mp h
  obtain ⟨body, rfl⟩ := List.head?_eq_some_iff.mp hhead
  obtain ⟨line, behind, rfl, hlength, hinside, hbehind⟩ := Directive.exists_line '#' 1 body
  refine ⟨line, behind, rfl, ?_, hinside, hbehind⟩
  rw [next_of_some start (firstMatch?_directive attributes hblank _), hlength]
  exact (congrArg (List.take · _) (Nat.add_comm 1 _)).trans
    (List.take_left : List.take _ (('#' :: line) ++ behind) = _)

end Token

namespace Text

/-- Inside a piece of text whose newlines are all continued no line ends. -/
theorem not_endsLine_of_continued {front line behind : Text}
    (hinside : ∀ passed rest, line = passed ++ '\n' :: rest →
      ('#' :: passed).getLast? = some '\\')
    {offset : Nat} (hstart : bytes front < offset)
    (hstop : offset < bytes (front ++ '#' :: line)) :
    ¬ EndsLine (front ++ '#' :: line ++ behind) offset := by
  rintro ⟨upTo, rest, htext, rfl, hslash⟩
  have hwhole : front ++ '#' :: line <+: front ++ '#' :: line ++ behind := List.prefix_append _ _
  have hupTo : upTo <+: front ++ '#' :: line ++ behind := htext ▸ List.prefix_append _ _
  obtain ⟨c, passed, rfl⟩ :=
    exists_of_bytes_lt ((List.prefix_append _ _).trans hwhole) hupTo hstart
  obtain ⟨d, more, hsplit⟩ := exists_of_bytes_lt hupTo hwhole hstop
  have hd : d = '\n' := by
    rw [hsplit, List.append_assoc, List.append_cancel_left_eq, List.cons_append,
      List.cons.injEq] at htext
    exact htext.1
  rw [List.append_assoc, List.append_cancel_left_eq, List.cons_append, List.cons.injEq, hd]
    at hsplit
  obtain ⟨rfl, hline⟩ := hsplit
  rw [List.getLast?_append_of_ne_nil front (List.cons_ne_nil _ _)] at hslash
  exact hslash (hinside passed more hline)

end Text

namespace Token

open Scan Text

/-- A directive ends at the first end of a line behind its start, and with the text when no line
ends behind it. -/
theorem endsLine_of_directive (attributes : Bool) {front rest : Text} {context : Context}
    (h : (next (Rule.inForce attributes Rule.all) context (bytes front) rest).kind =
      .directive) :
    IsLeast {offset | bytes front < offset ∧ EndsLine (front ++ rest) offset}
        (next (Rule.inForce attributes Rule.all) context (bytes front) rest).stop ∨
      (∀ offset, bytes front < offset → ¬ EndsLine (front ++ rest) offset) ∧
        (next (Rule.inForce attributes Rule.all) context (bytes front) rest).stop =
          bytes (front ++ rest) := by
  obtain ⟨line, behind, rfl, htext, hinside, hbehind⟩ := exists_line_of_directive attributes h
  rw [stop, start_next, htext, ← bytes_append, ← List.append_assoc]
  have hnone := @not_endsLine_of_continued front line behind hinside
  cases behind with
  | nil =>
    right
    rw [List.append_nil] at hnone ⊢
    refine ⟨fun offset hstart hends => ?_, rfl⟩
    obtain ⟨upTo, more, hwhole, rfl, -⟩ := id hends
    refine hnone hstart ?_ hends
    have hnewline : bytes ('\n' :: more) = 1 + bytes more := bytes_cons _ _
    rw [hwhole, bytes_append]
    omega
  | cons c behind =>
    left
    obtain ⟨rfl, hslash⟩ := hbehind c rfl
    refine ⟨⟨?_, front ++ '#' :: line, behind, rfl, rfl, ?_⟩, ?_⟩
    · have hpos := bytes_pos (List.cons_ne_nil '#' line)
      rw [bytes_append]
      omega
    · rwa [List.getLast?_append_of_ne_nil front (List.cons_ne_nil _ _)]
    · rintro offset ⟨hstart, hends⟩
      by_contra hlt
      exact hnone hstart (Nat.lt_of_not_le hlt) hends

end Token

open Scan Text

/-- At every point of a run the context kept up to date token by token is the one in which the rest
of the text is scanned, and it says of the line what the line says. A token is a directive exactly
when it starts at a `#` with only blanks in front of it on its line; a directive ends at the first
newline behind its start that no backslash continues, and with the text when there is none. -/
theorem directive_iff_blank_line (attributes : Bool) (text : Text) :
    (∀ taken left, Token.lex attributes text = taken ++ left →
      left = Token.scan (Rule.inForce attributes Rule.all) (Token.contextBehind taken)
          (bytes (taken.flatMap Token.text)) (left.flatMap Token.text) ∧
        (Token.contextBehind taken).lineBlank =
          (lastLine (taken.flatMap Token.text)).all isBlank) ∧
      ∀ token ∈ Token.lex attributes text, ∃ front rest, text = front ++ rest ∧
        bytes front = token.start ∧
        (token.kind = .directive ↔
          rest.head? = some '#' ∧ (lastLine front).all isBlank = true) ∧
        (token.kind = .directive →
          IsLeast {offset | token.start < offset ∧ text.EndsLine offset} token.stop ∨
            (∀ offset, token.start < offset → ¬ text.EndsLine offset) ∧
              token.stop = bytes text) := by
  constructor
  · intro taken left h
    have hleft := Token.scan_of_append h
    rw [Nat.zero_add, ← Token.contextBehind_eq] at hleft
    refine ⟨hleft, ?_⟩
    rw [Token.contextBehind_eq, Context.lineBlank_after_start]
  · intro token htoken
    obtain ⟨front, rest, rfl, -, rfl⟩ := Token.exists_next_of_mem_scan htoken
    rw [Nat.zero_add, Token.start_next]
    refine ⟨front, rest, rfl, rfl, ?_, Token.endsLine_of_directive attributes⟩
    rw [Token.kind_next_eq_directive_iff, Context.lineBlank_after_start]

/-- A string goes over a line in front of a `#` that is no directive, and the directive behind it
goes over a newline that a backslash continues. -/
theorem directive_iff_blank_line_continued :
    (Token.contextBehind ((Token.lex true "\"a\n\" #b\n #c \\\n\nd".toList).take 2)).lineBlank =
        (lastLine "\"a\n\" ".toList).all isBlank ∧
      ⟨some .directive, .directive, 9, "#c \\\n".toList, true⟩ ∈
        Token.lex true "\"a\n\" #b\n #c \\\n\nd".toList ∧
      IsLeast {offset | 9 < offset ∧ EndsLine "\"a\n\" #b\n #c \\\n\nd".toList offset} 14 := by
  obtain ⟨hstates, htokens⟩ :=
    directive_iff_blank_line true "\"a\n\" #b\n #c \\\n\nd".toList
  have htaken : ((Token.lex true "\"a\n\" #b\n #c \\\n\nd".toList).take 2).flatMap Token.text =
      "\"a\n\" ".toList := by
    decide +kernel
  have hmem : ⟨some .directive, .directive, 9, "#c \\\n".toList, true⟩ ∈
      Token.lex true "\"a\n\" #b\n #c \\\n\nd".toList := by
    decide +kernel
  refine ⟨?_, hmem, ?_⟩
  · rw [← htaken]
    exact (hstates _ _ (List.take_append_drop 2 _).symm).2
  · obtain ⟨-, -, -, -, -, hends⟩ := htokens _ hmem
    refine (hends rfl).resolve_right fun hnone => ?_
    exact absurd hnone.2 (by decide)

end CodeTint
