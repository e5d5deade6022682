import CodeTint.Proofs.AttributeSwitch
import CodeTint.Proofs.Standalone
import CodeTint.Proofs.Warning
import CodeTint.Trace
import Mathlib.Algebra.GroupWithZero.Nat

/-!
# The trace replays the scan

Rules are tried one after another, and the one that answers is named on the spot; an open construct
is reported as soon as it has been taken. What is emitted on the way is what the tokens and the
warnings of the text call for, token by token. The lengths that were named and the single
characters that no rule took make up the text, and the counts at the end are those of fragments
without plain neighbours.
-/

namespace CodeTint

open Scan Text

/-- The name under which a kind shows up in a trace. -/
def Kind.tracedAs? : Kind → Option String
  | .whitespace => some "whitespace"
  | .attributeSpec => some "attribute"
  | .lineComment => some "line-comment"
  | .blockComment => some "block-comment"
  | .directive => some "preprocessor"
  | .rawString => some "raw-string"
  | .string => some "string"
  | .character => some "char"
  | .number => some "number"
  | .keyword | .identifier => some "identifier"
  | .other => none

namespace Fragment

/-- Fragments that are apart are at most twice the classified ones and one more. -/
theorem length_le_of_isChain {fragments : List Fragment} (h : fragments.IsChain Apart) :
    fragments.length ≤ 2 * fragments.countP (!·.isPlain) + 1 ∧
      ((∀ fragment ∈ fragments.head?, fragment.isPlain = false) →
        fragments.length ≤ 2 * fragments.countP (!·.isPlain)) := by
  induction fragments with
  | nil => exact ⟨Nat.zero_le _, fun _ => Nat.le_refl _⟩
  | cons fragment fragments ih =>
    rw [List.isChain_cons] at h
    obtain ⟨hall, hclassified⟩ := ih h.2
    cases hplain : fragment.isPlain with
    | false =>
      rw [List.countP_cons_of_pos (by rw [hplain]; rfl), List.length_cons]
      exact ⟨by omega, fun _ => by omega⟩
    | true =>
      -- behind a plain fragment a classified one stands first
      have hbehind := hclassified fun next hnext =>
        Bool.eq_false_iff.mpr fun hnextPlain => h.1 next hnext ⟨hplain, hnextPlain⟩
      rw [List.countP_cons_of_neg (by rw [hplain]; decide), List.length_cons]
      refine ⟨by omega, fun hhead => ?_⟩
      rw [hhead fragment rfl] at hplain
      cases hplain

end Fragment

namespace Token

/-- A token of a run comes from the rule that its kind tells. -/
theorem rule_of_mem_scan {table : List Rule} {context : Context} {start : Nat} {text : Text}
    {token : Token} (h : token ∈ scan table context start text) :
    token.rule = Rule.ofKind? token.kind := by
  obtain ⟨front, rest, -, -, rfl⟩ := exists_next_of_mem_scan h
  exact rule_next

/-- The span of a token is exact in a text that fits. -/
theorem span_of_mem_lex {attributes : Bool} {text : Text} (hsize : bytes text < UInt32.size)
    {token : Token} (h : token ∈ lex attributes text) :
    token.span.start.toNat = token.start ∧ token.span.stop.toNat = token.stop ∧
      token.span.length = bytes token.text := by
  have hbounds := bounds_of_mem_scan h
  have hstop : token.stop < UInt32.size := by
    omega
  have hstart : token.start < UInt32.size := by
    omega
  obtain ⟨hstart, hstop⟩ := Span.ofRange_exact hstart hstop
  refine ⟨hstart, hstop, ?_⟩
  rw [span, Span.length, hstart, hstop, stop, Nat.add_sub_cancel_left]

/-- The warning that an open token calls for is recorded exactly when the token is open. -/
theorem unterminated_mem_iff {attributes : Bool} {text : Text} (hsize : bytes text < UInt32.size)
    {token : Token} (h : token ∈ lex attributes text) :
    Diagnostic.unterminated token.kind token.span ∈ Diagnostic.ofTokens (lex attributes text) ↔
      token.closed = false := by
  constructor
  · intro hmem
    exact (isReported_iff (by rwa [Nat.zero_add]) h).mp ⟨_, hmem, rfl⟩
  · intro hopen
    exact Diagnostic.mem_ofTokens_iff.mpr ⟨token, h, hopen, rfl⟩

end Token

namespace Trace

/-- The bytes that an event says were taken. -/
def Event.matchedLength : Event → Nat
  | .matched _ length => length
  | _ => 0

/-- The event reports an open construct. -/
def Event.isUnterminated : Event → Bool
  | .unterminated .. => true
  | _ => false

/-- The rules of a table are tried one after another: the first one that answers is named, and the
rules behind it are not asked. Where none answers nothing is named and one character is taken. -/
def attempt (context : Context) (text : Text) : List Rule → List Event × Match
  | [] => ([], .single)
  | rule :: rest =>
    match rule.scan? context text with
    | some found => ([.matched rule (bytes (text.take found.extent.length))], found)
    | none => attempt context text rest

/-- Trying the rules finds the next token and names its rule. -/
theorem attempt_eq (table : List Rule) (context : Context) (start : Nat) (text : Text) :
    (attempt context text table).1 = ruleEvents (Token.next table context start text) ∧
      Token.next table context start text =
        ⟨(Token.next table context start text).rule, (attempt context text table).2.kind, start,
          text.take (attempt context text table).2.extent.length,
          (attempt context text table).2.extent.closed⟩ := by
  induction table with
  | nil => exact ⟨rfl, rfl⟩
  | cons rule rest ih =>
    cases hscan : rule.scan? context text with
    | some found =>
      have hfirst : firstMatch? (rule :: rest) context text = some (rule, found) := by
        rw [firstMatch?, List.findSome?_cons, hscan]
        rfl
      rw [attempt, hscan, Token.next_of_some start hfirst]
      exact ⟨rfl, rfl⟩
    | none =>
      have hrest : firstMatch? (rule :: rest) context text = firstMatch? rest context text := by
        rw [firstMatch?, List.findSome?_cons, hscan]
        rfl
      have hnext : Token.next (rule :: rest) context start text =
          Token.next rest context start text := by
        rw [Token.next, hrest, Token.next]
      rw [attempt, hscan, hnext]
      exact ih

/-- Trying the rules takes the text of the next token. -/
theorem take_attempt (table : List Rule) (context : Context) (start : Nat) (text : Text) :
    text.take (attempt context text table).2.extent.length =
      (Token.next table context start text).text := by
  rw [(attempt_eq table context start text).2]

/-- What is emitted while a text is scanned from front to back: at each place the name of the rule
that answers, and behind it a report if the construct stays open. -/
def emit (table : List Rule) (context : Context) (start : Nat) (text : Text) : List Event :=
  if h : text = [] then []
  else
    let answer := attempt context text table
    let taken := text.take answer.2.extent.length
    let stop := start + bytes taken
    answer.1 ++ (if answer.2.extent.closed then [] else [.unterminated answer.2.kind start stop]) ++
      emit table (context.after taken) stop (text.drop taken.length)
termination_by text.length
decreasing_by
  rw [take_attempt table context start]
  exact Token.drop_next_length table context start h

/-- What is emitted during a run is told by its tokens. -/
theorem emit_eq_ofTokens (table : List Rule) (context : Context) (start : Nat) (text : Text) :
    emit table context start text = ofTokens (Token.scan table context start text) := by
  induction context, start, text using Token.scan_induction table with
  | nil context start =>
    rw [emit, dif_pos rfl, Token.scan_nil]
    rfl
  | cons context start text htext ih =>
    obtain ⟨hnamed, hnext⟩ := attempt_eq table context start text
    have hstop : (Token.next table context start text).stop =
        start + bytes (Token.next table context start text).text := by
      rw [Token.stop, Token.start_next]
    have hreport : (if (attempt context text table).2.extent.closed then []
        else [.unterminated (attempt context text table).2.kind start
          (Token.next table context start text).stop]) =
        openEvents (Token.next table context start text) := by
      rw [openEvents, Token.start_next, congrArg Token.kind hnext, congrArg Token.closed hnext]
    rw [emit, dif_neg htext]
    dsimp only
    rw [take_attempt table context start, ← hstop, ih, hnamed, hreport,
      Token.scan_of_ne_nil table context start htext, ofTokens, ofTokens, List.flatMap_cons]

/-- What a token calls for in a trace: the name of the rule of its kind with its size, and a report
if the warning about it is among those recorded. -/
def calledFor (warnings : List Diagnostic) (token : Token) : List Event :=
  ((Rule.ofKind? token.kind).map (.matched · token.span.length)).toList ++
    if Diagnostic.unterminated token.kind token.span ∈ warnings then
      [.unterminated token.kind token.span.start.toNat token.span.stop.toNat]
    else []

/-- The tokens of a text tell what its tokens and warnings call for. -/
theorem ofTokens_lex {attributes : Bool} {text : Text} (hsize : bytes text < UInt32.size) :
    ofTokens (Token.lex attributes text) =
      (Token.lex attributes text).flatMap
        (calledFor (Diagnostic.ofTokens (Token.lex attributes text))) := by
  refine List.flatMap_congr fun token htoken => ?_
  obtain ⟨hstart, hstop, hlength⟩ := Token.span_of_mem_lex hsize htoken
  have hnamed : ruleEvents token =
      ((Rule.ofKind? token.kind).map (.matched · token.span.length)).toList := by
    rw [ruleEvents, Token.rule_of_mem_scan htoken, hlength]
    cases Rule.ofKind? token.kind <;> rfl
  have hreport : openEvents token =
      if Diagnostic.unterminated token.kind token.span ∈
          Diagnostic.ofTokens (Token.lex attributes text) then
        [.unterminated token.kind token.span.start.toNat token.span.stop.toNat]
      else [] := by
    rw [hstart, hstop, openEvents]
    cases hclosed : token.closed with
    | true =>
      rw [if_pos rfl, if_neg]
      rw [Token.unterminated_mem_iff hsize htoken, hclosed]
      decide
    | false =>
      rw [if_neg Bool.false_ne_true, if_pos]
      rwa [Token.unterminated_mem_iff hsize htoken]
  rw [hnamed, hreport, calledFor]

/-- The lengths that a run names and the bytes that no rule took are all the bytes of its
tokens. -/
theorem sum_matchedLength {tokens : List Token}
    (h : ∀ token ∈ tokens, token.rule = Rule.ofKind? token.kind) :
    ((ofTokens tokens).map Event.matchedLength).sum +
        ((tokens.filter (·.kind = .other)).map (bytes ·.text)).sum =
      bytes (tokens.flatMap Token.text) := by
  induction tokens with
  | nil => rfl
  | cons token tokens ih =>
    have hbehind := ih fun other hother => h other (List.mem_cons_of_mem _ hother)
    have hrule := h token List.mem_cons_self
    have hopen : ((openEvents token).map Event.matchedLength).sum = 0 := by
      rw [openEvents]
      split <;> rfl
    have hfirst : ((ruleEvents token).map Event.matchedLength).sum +
        (([token].filter (·.kind = .other)).map (bytes ·.text)).sum = bytes token.text := by
      rw [ruleEvents, hrule]
      cases hkind : token.kind <;>
        simp [Rule.ofKind?, Event.matchedLength, hkind]
    have hfilter : ((token :: tokens).filter (·.kind = .other)) =
        [token].filter (·.kind = .other) ++ tokens.filter (·.kind = .other) :=
      List.filter_append [token] tokens
    rw [ofTokens, List.flatMap_cons, ← ofTokens, hfilter, List.flatMap_cons, bytes_append,
      ← hbehind, ← hfirst]
    simp only [List.map_append, List.sum_append, hopen]
    omega

/-- The lengths that are named in a text and the sizes of the characters that no rule took make up
the size of the text. -/
theorem sum_matchedLength_lex {attributes : Bool} {text : Text}
    (hsize : bytes text < UInt32.size) :
    ((ofTokens (Token.lex attributes text)).map Event.matchedLength).sum +
        (((Token.lex attributes text).filter (·.kind = .other)).map (·.span.length)).sum =
      bytes text := by
  have hlengths : ((Token.lex attributes text).filter (·.kind = .other)).map (·.span.length) =
      ((Token.lex attributes text).filter (·.kind = .other)).map (bytes ·.text) := by
    refine List.map_congr_left fun token htoken => ?_
    exact (Token.span_of_mem_lex hsize (List.mem_of_mem_filter htoken)).2.2
  have hrules : ∀ token ∈ Token.lex attributes text, token.rule = Rule.ofKind? token.kind :=
    fun token htoken => Token.rule_of_mem_scan htoken
  rw [hlengths, sum_matchedLength hrules, Token.flatMap_text_lex]

/-- In a run at most one event reports an open construct, and it is the last one. -/
theorem exists_quiet (table : List Rule) (context : Context) (start : Nat) (text : Text) :
    ∃ quiet late, ofTokens (Token.scan table context start text) = quiet ++ late ∧
      (∀ event ∈ quiet, event.isUnterminated = false) ∧ late.length ≤ 1 := by
  have hnamed : ∀ token : Token, ∀ event ∈ ruleEvents token, event.isUnterminated = false := by
    intro token event hevent
    rw [ruleEvents] at hevent
    split at hevent
    · rw [List.mem_singleton.mp hevent]
      rfl
    · cases hevent
  have hlength : ∀ token : Token, (openEvents token).length ≤ 1 := by
    intro token
    rw [openEvents]
    split
    · exact Nat.zero_le 1
    · exact Nat.le_refl 1
  rcases (Token.scan table context start text).eq_nil_or_concat with hnil | ⟨front, last, hlast⟩
  · exact ⟨[], [], by rw [hnil]; rfl, fun _ hevent => absurd hevent List.not_mem_nil,
      Nat.zero_le 1⟩
  · rw [List.concat_eq_append] at hlast
    refine ⟨front.flatMap ruleEvents ++ ruleEvents last, openEvents last, ?_, ?_, hlength last⟩
    · have hfront : ofTokens front = front.flatMap ruleEvents := by
        refine List.flatMap_congr fun token htoken => ?_
        rw [openEvents, Token.closed_of_mem_front hlast htoken, if_pos rfl, List.append_nil]
      rw [hlast, ofTokens, List.flatMap_append, ← ofTokens, hfront, List.append_assoc,
        List.flatMap_singleton]
    · intro event hevent
      rw [List.mem_append, List.mem_flatMap] at hevent
      rcases hevent with ⟨token, -, hevent⟩ | hevent
      · exact hnamed token event hevent
      · exact hnamed last event hevent

/-- Behind a report that stands in front of a last event comes that event only, when there is at most
one report and nothing but the last event behind it. -/
theorem eq_last_of_unterminated {quiet late front behind : List Event} {last event : Event}
    (hquiet : ∀ event ∈ quiet, event.isUnterminated = false) (hlate : late.length ≤ 1)
    (hlast : last.isUnterminated = false)
    (h : quiet ++ late ++ [last] = front ++ event :: behind)
    (hevent : event.isUnterminated = true) : behind = [last] := by
  have hnot : event ∉ quiet := fun hmem => by
    rw [hquiet event hmem] at hevent
    cases hevent
  rcases behind.eq_nil_or_concat with rfl | ⟨between, final, rfl⟩
  · have hends := (List.append_inj' h rfl).2
    rw [List.singleton_inj.mp hends, hevent] at hlast
    cases hlast
  · rw [List.concat_eq_append, ← List.cons_append, ← List.append_assoc] at h
    obtain ⟨hinner, hends⟩ := List.append_inj' h rfl
    have hbetween : between = [] := by
      rcases between.eq_nil_or_concat with hnil | ⟨rest, second, rfl⟩
      · exact hnil
      · -- with something more in between, the report would be one of the quiet events
        exfalso
        rw [List.concat_eq_append, ← List.cons_append, ← List.append_assoc] at hinner
        match late, hlate with
        | [], _ =>
          rw [List.append_nil] at hinner
          exact hnot (hinner ▸ List.mem_append_left _ (List.mem_append_right _ List.mem_cons_self))
        | [_], _ =>
          have hfront := (List.append_inj' hinner rfl).1
          exact hnot (hfront ▸ List.mem_append_right _ List.mem_cons_self)
    rw [hbetween, List.singleton_inj.mp hends]
    rfl

/-- The trace of a text is quiet up to at most one report, and only the closing event comes behind
it. -/
theorem exists_quiet_highlight (scheme : Scheme) (text : Text) :
    ∃ quiet late, ofHighlight scheme text =
        quiet ++ late ++ [closing (classify scheme text).fragments] ∧
      (∀ event ∈ quiet, event.isUnterminated = false) ∧ late.length ≤ 1 := by
  obtain ⟨quiet, late, hsplit, hquiet, hlate⟩ :=
    exists_quiet (Rule.inForce scheme.attributes Rule.all) .start 0 text
  refine ⟨.opened (bytes text) scheme :: quiet, late, ?_, ?_, hlate⟩
  · rw [ofHighlight, Scheme.tokens, Token.lex, Token.lexUnder, hsplit]
    rfl
  · intro event hevent
    rcases List.mem_cons.mp hevent with rfl | hevent
    · rfl
    · exact hquiet event hevent

/-- The trace of a run is what it emits between its opening and its closing event, and that is what
the tokens and warnings of the text call for in their order. The lengths that are named and the
sizes of the characters that no rule took make up the size of the text. At most one event reports an
open construct, and only the closing one follows it. There are at most twice as many fragments as
classified ones and one more. -/
theorem trace_replays_scan (config : Config) {text : Text} (hsize : bytes text < UInt32.size) :
    ofHighlight config.scheme text =
        .opened (bytes text) config.scheme ::
          emit (Rule.inForce config.scheme.attributes Rule.all) .start 0 text ++
          [closing (classify config.scheme text).fragments] ∧
      ofHighlight config.scheme text =
        .opened (bytes text) config.scheme ::
          (config.scheme.tokens text).flatMap
            (calledFor (classify config.scheme text).diagnostics) ++
          [.scanned (classify config.scheme text).fragments.length
            ((classify config.scheme text).fragments.countP (!·.isPlain))] ∧
      (∀ kind, (Rule.ofKind? kind).map Rule.name = kind.tracedAs?) ∧
      ((ofHighlight config.scheme text).map Event.matchedLength).sum +
          (((config.scheme.tokens text).filter (·.kind = .other)).map (·.span.length)).sum =
        bytes text ∧
      (ofHighlight config.scheme text).countP Event.isUnterminated ≤ 1 ∧
      (∀ front event behind, ofHighlight config.scheme text = front ++ event :: behind →
        event.isUnterminated = true →
          behind = [closing (classify config.scheme text).fragments]) ∧
      (classify config.scheme text).fragments.countP (!·.isPlain) ≤
        (classify config.scheme text).fragments.length ∧
      (classify config.scheme text).fragments.length ≤
        2 * (classify config.scheme text).fragments.countP (!·.isPlain) + 1 := by
  have hevents : ofHighlight config.scheme text = .opened (bytes text) config.scheme ::
      ofTokens (config.scheme.tokens text) ++
        [closing (classify config.scheme text).fragments] := rfl
  obtain ⟨quiet, late, hparts, hquiet, hlate⟩ := exists_quiet_highlight config.scheme text
  refine ⟨?_, ?_, ?_, ?_, ?_, ?_, List.countP_le_length, ?_⟩
  · rw [hevents, emit_eq_ofTokens]
    rfl
  · rw [hevents, Scheme.tokens, ofTokens_lex hsize]
    rfl
  · intro kind
    cases kind <;> rfl
  · have hnamed : ((ofHighlight config.scheme text).map Event.matchedLength).sum =
        ((ofTokens (config.scheme.tokens text)).map Event.matchedLength).sum := by
      rw [hevents]
      simp [Event.matchedLength, closing]
    rw [hnamed]
    exact sum_matchedLength_lex hsize
  · have hcount : late.countP Event.isUnterminated ≤ late.length := List.countP_le_length
    rw [hparts, List.countP_append, List.countP_append,
      List.countP_eq_zero.mpr fun event hevent => Bool.eq_false_iff.mp (hquiet event hevent)]
    exact Nat.le_trans (Nat.le_of_eq (Nat.zero_add _)) (Nat.le_trans hcount hlate)
  · intro front event behind hcut hevent
    rw [hparts] at hcut
    exact eq_last_of_unterminated hquiet hlate rfl hcut hevent
  · exact (Fragment.length_le_of_isChain (Fragment.isChain_mergePlain _)).1

/-- A character outside of every rule, a number and an unclosed string. -/
theorem trace_replays_scan_string :
    bytes "a=1 \"c".toList < UInt32.size ∧
      ofHighlight .split "a=1 \"c".toList =
        [.opened 6 .split, .matched .word 1, .matched .number 1, .matched .whitespace 1,
          .matched .string 2, .unterminated .string 4 6, .scanned 4 2] ∧
      (ofHighlight .split "a=1 \"c".toList).countP Event.isUnterminated ≤ 1 := by
  have hsize : bytes "a=1 \"c".toList < UInt32.size := by
    decide
  obtain ⟨-, hcalled, -, -, hone, -⟩ := trace_replays_scan ⟨.split, "", "b"⟩ hsize
  refine ⟨hsize, ?_, hone⟩
  rw [hcalled]
  decide +kernel

end Trace

end CodeTint
