import CodeTint.Proofs.Directives
import CodeTint.Proofs.Warning

/-!
# Tokens by themselves

What stands around a token decides about a `#` and about a digit only. Every other token is found
again, open or closed as it was, when its text is scanned by itself. A construct that has to be
closed is found open in every shorter text with its opener, so it was closed at the first
opportunity.
-/

namespace CodeTint

/-- The delimiters with which the constructs of a kind open, for the kinds that have to be
closed. -/
def Kind.openers : Kind → List Text
  | .blockComment => [['/', '*']]
  | .rawString => [['R', '"']]
  | .string => [['"'], ['u', '8', '"'], ['L', '"'], ['u', '"'], ['U', '"']]
  | .character => [['\x27'], ['u', '8', '\x27'], ['L', '\x27'], ['u', '\x27'], ['U', '\x27']]
  | .attributeSpec => [['[', '[']]
  | _ => []

/-- A text that starts with an opener is not empty. -/
theorem Kind.ne_nil_of_opener_prefix {kind : Kind} {opener text : Text}
    (hopener : opener ∈ kind.openers) (hbegin : opener <+: text) : text ≠ [] := by
  have hall : ∀ kind ∈ Kind.all, ∀ opener ∈ kind.openers, opener ≠ [] := by
    decide
  rintro rfl
  exact hall kind (mem_all kind) opener hopener (List.prefix_nil.mp hbegin)

namespace Scan

/-- The context decides about a `#` and about a digit only. -/
theorem Rule.scan?_cons_congr {first last : Context} {c : Char}
    (hhash : c = '#' → first.lineBlank = last.lineBlank)
    (hdigit : c.isDigit = true → first.behindLetter = last.behindLetter) (rule : Rule)
    (rest : Text) : rule.scan? first (c :: rest) = rule.scan? last (c :: rest) := by
  cases rule
  case directive =>
    by_cases hc : c = '#'
    · rw [scan?, scan?, hhash hc]
    · simp [scan?, Directive.scan?, hc]
  case number =>
    by_cases hc : c.isDigit = true
    · rw [scan?, scan?, hdigit hc]
    · simp only [scan?, Number.scan?_of_not_digit hc, Option.map_none, ite_self]
  all_goals rfl

/-- Every rule declines a `#` on a line that is not blank. -/
theorem firstMatch?_hash {context : Context} (hblank : context.lineBlank = false)
    (table : List Rule) (rest : Text) : firstMatch? table context ('#' :: rest) = none := by
  rw [firstMatch?_eq_none_iff]
  intro rule _
  cases rule
  case directive =>
    rw [Rule.scan?, hblank]
    rfl
  case number =>
    have hdigit : ¬ '#'.isDigit = true := by decide
    simp only [Rule.scan?, Number.scan?_of_not_digit hdigit, Option.map_none, ite_self]
  all_goals rfl

/-- Every rule declines a digit behind a letter. -/
theorem firstMatch?_digit {context : Context} (hletter : context.behindLetter = true) {c : Char}
    (hc : c.isDigit = true) (table : List Rule) (rest : Text) :
    firstMatch? table context (c :: rest) = none := by
  have hopeners : ∀ opener ∈ Rule.allOpeners, opener.head?.map Char.isDigit = some false := by
    decide
  have hothers : ∀ rule ∈ Rule.all, rule.openers = [] →
      rule ∈ [Rule.whitespace, .number, .word] := by
    decide
  rw [firstMatch?_eq_none_iff]
  intro rule _
  rw [Rule.scan?_eq, Option.map_eq_none_iff]
  by_cases hnil : rule.openers = []
  · have hrule := hothers rule (Rule.mem_all rule) hnil
    simp only [List.mem_cons, List.not_mem_nil, or_false] at hrule
    rcases hrule with rfl | rfl | rfl
    · simp [Rule.reach?, Space.scan?, Text.runLength, Text.isSpace_eq_false_of_isDigit hc]
    · exact if_pos hletter
    · simp [Rule.reach?, Word.scan?, Text.isWordStart_eq_false_of_isDigit hc]
  · -- no opener starts with a digit
    rw [Option.eq_none_iff_forall_not_mem]
    intro extent hextent
    obtain ⟨opener, hopener, hbegin⟩ := Rule.exists_opener hextent hnil
    have hhead := hopeners opener (Rule.mem_allOpeners hopener)
    cases opener with
    | nil => cases hhead
    | cons d opener =>
      rw [List.head?_cons, (List.cons_prefix_cons.mp hbegin).1, Option.map_some, hc] at hhead
      cases hhead

/-- The kinds with openers are those of the rules whose constructs have to be closed. -/
theorem Rule.openers_of_kind {kind : Kind} {rule : Rule} (hkind : kind.openers ≠ [])
    (hrule : ofKind? kind = some rule) :
    rule.endsWithText = false ∧ rule.openers = kind.openers := by
  cases kind <;> simp only [Kind.openers, ne_eq, not_true_eq_false] at hkind <;>
    cases hrule <;> exact ⟨rfl, rfl⟩

end Scan

namespace Token

open Scan Text

variable {table : List Rule} {context : Context} {start : Nat} {text : Text} {token : Token}

/-- Unless it is a single `#` or digit, the next token is the same behind nothing. -/
theorem next_context (htext : text ≠ [])
    (hother : (next table context start text).kind = .other →
      ∀ c ∈ (next table context start text).text, c ≠ '#' ∧ c.isDigit = false) :
    next table .start start text = next table context start text := by
  obtain ⟨c, rest, rfl⟩ := List.exists_cons_of_ne_nil htext
  have hsingle : firstMatch? table context (c :: rest) = none → c ≠ '#' ∧ c.isDigit = false := by
    intro hm
    rw [next_of_none start hm] at hother
    exact hother rfl c (List.mem_singleton_self c)
  have hhash : c = '#' → Context.start.lineBlank = context.lineBlank := by
    rintro rfl
    cases hblank : context.lineBlank with
    | true => rfl
    | false => exact absurd rfl (hsingle (firstMatch?_hash hblank table rest)).1
  have hdigit : c.isDigit = true → Context.start.behindLetter = context.behindLetter := by
    intro hc
    cases hletter : context.behindLetter with
    | false => rfl
    | true =>
      have hno := (hsingle (firstMatch?_digit hletter hc table rest)).2
      exact absurd (hc.symm.trans hno) Bool.true_eq_false.mp
  have hm : firstMatch? table .start (c :: rest) = firstMatch? table context (c :: rest) := by
    simp only [firstMatch?, Rule.scan?_cons_congr hhash hdigit]
  rw [next, next, hm]

/-- Where the next token starts is all that its place decides. -/
theorem next_at (start other : Nat) :
    next table context other text = { next table context start text with start := other } := by
  unfold next
  split <;> rfl

/-- A text that its first token takes whole has no other token. -/
theorem scan_eq_singleton (htext : text ≠ [])
    (hall : (next table context start text).text = text) :
    scan table context start text = [next table context start text] := by
  rw [scan_of_ne_nil table context start htext, hall, List.drop_length, scan_nil]

/-- Unless it is a single `#` or digit, a token of a run is the next token of its own text. -/
theorem next_text_of_mem_scan (htoken : token ∈ scan table context start text)
    (hother : token.kind = .other → ∀ c ∈ token.text, c ≠ '#' ∧ c.isDigit = false) :
    token.text ≠ [] ∧ next table .start 0 token.text = { token with start := 0 } := by
  obtain ⟨front, rest, -, hrest, rfl⟩ := exists_next_of_mem_scan htoken
  have hsame := next_context hrest hother
  obtain ⟨hne, more, hmore⟩ := text_next table (context.after front) (start + bytes front) hrest
  refine ⟨hne, ?_⟩
  generalize next table (context.after front) (start + bytes front) rest = token at *
  rw [← hmore] at hsame
  have hle : (next table .start (start + bytes front) (token.text ++ more)).text.length ≤
      token.text.length := by
    rw [hsame]
  rw [next_at (start + bytes front) 0, next_of_append hne hle, hsame]

/-- A token that is found again by itself comes from the rule of its kind. -/
theorem exists_match_of_openers
    (halone : next table .start 0 token.text = { token with start := 0 })
    (hopeners : token.kind.openers ≠ []) :
    ∃ rule found, firstMatch? table .start token.text = some (rule, found) ∧
      token.rule = some rule ∧ token.kind = found.kind ∧
      found.extent.length = token.text.length ∧
      rule.endsWithText = false ∧ rule.openers = token.kind.openers := by
  cases hm : firstMatch? table .start token.text with
  | none =>
    rw [next_of_none 0 hm] at halone
    rw [← congrArg Token.kind halone] at hopeners
    exact absurd rfl hopeners
  | some answer =>
    obtain ⟨rule, found⟩ := answer
    obtain ⟨-, -, -, hfound, -⟩ := firstMatch?_eq_some_iff.mp hm
    have hlength := length_next_of_some 0 hm
    rw [halone] at hlength
    rw [next_of_some 0 hm] at halone
    have hrule : some rule = token.rule := congrArg Token.rule halone
    have hkind : found.kind = token.kind := congrArg Token.kind halone
    obtain ⟨hends, hsame⟩ := Rule.openers_of_kind hopeners (hkind ▸ Rule.ofKind?_scan? hfound)
    exact ⟨rule, found, rfl, hrule.symm, hkind.symm, hlength.symm, hends, hsame⟩

/-- A token that has to be closed starts with one of the openers of its kind. -/
theorem exists_opener_prefix
    (halone : next table .start 0 token.text = { token with start := 0 })
    (hopeners : token.kind.openers ≠ []) :
    ∃ opener ∈ token.kind.openers, opener <+: token.text := by
  obtain ⟨rule, found, hm, -, -, -, -, hsame⟩ := exists_match_of_openers halone hopeners
  obtain ⟨-, -, -, hfound, -⟩ := firstMatch?_eq_some_iff.mp hm
  rw [Rule.scan?_eq, Option.map_eq_some_iff] at hfound
  obtain ⟨extent, hextent, -⟩ := hfound
  rw [← hsame] at hopeners ⊢
  exact Rule.exists_opener hextent hopeners

/-- A proper beginning of a token that has to be closed is open when it holds the opener. -/
theorem next_beginning
    (halone : next table .start 0 token.text = { token with start := 0 })
    {opener front : Text} (hopener : opener ∈ token.kind.openers) (hbegin : opener <+: front)
    (hfront : front <+: token.text) (hproper : front ≠ token.text) :
    next table .start 0 front = ⟨token.rule, token.kind, 0, front, false⟩ := by
  obtain ⟨rule, found, hm, hrule, hkind, hlength, hends, hsame⟩ :=
    exists_match_of_openers halone (List.ne_nil_of_mem hopener)
  have hne := Kind.ne_nil_of_opener_prefix hopener hbegin
  obtain ⟨more, hmore⟩ := hfront
  have hfar : front.length < found.extent.length := by
    have hle := congrArg List.length hmore
    rw [List.length_append] at hle
    have hpos : more ≠ [] := by
      rintro rfl
      rw [List.append_nil] at hmore
      exact hproper hmore
    have hlen := List.length_pos_iff.mpr hpos
    omega
  rw [← hmore] at hm
  obtain ⟨-, -, -, hfound, -⟩ := firstMatch?_eq_some_iff.mp hm
  rw [← hsame] at hopener
  have hshort : ¬ rule.Short front := by
    rintro (hnil | hinside | ⟨rfl, -⟩)
    · exact hne hnil
    · exact Rule.not_opener_prefix hinside (Rule.mem_allOpeners hopener) hbegin
    · cases hends
  have hall := (Rule.scan?_of_overrun hfound hfar).resolve_right hshort
  rw [next_of_some 0 (firstMatch?_of_append hm hall), List.take_length, hrule, hkind, hends]
  rw [Rule.scan?_eq, Option.map_eq_some_iff] at hfound
  obtain ⟨extent, -, rfl⟩ := hfound
  rw [Rule.kindOf_eq hends front]

/-- A warning is about the token. -/
def IsReported (tokens : List Token) (token : Token) : Prop :=
  ∃ diagnostic ∈ Diagnostic.ofTokens tokens, diagnostic.span = some token.span

/-- A warning is about a token exactly when the token is open. -/
theorem isReported_iff (hsize : start + bytes text < UInt32.size)
    (htoken : token ∈ scan table context start text) :
    IsReported (scan table context start text) token ↔ token.closed = false := by
  constructor
  · rintro ⟨diagnostic, hdiagnostic, hspan⟩
    obtain ⟨other, hother, hopen, rfl⟩ := Diagnostic.mem_ofTokens_iff.mp hdiagnostic
    have hend := stop_of_open hother hopen
    have hbounds := bounds_of_mem_scan htoken
    -- the token ends where the open one does, and that is the end of the text
    have hstop : token.stop % UInt32.size = other.stop % UInt32.size := by
      rw [← Span.stop_ofRange token.start, ← Span.stop_ofRange other.start]
      exact congrArg (·.stop.toNat) (Option.some.inj hspan).symm
    rw [Nat.mod_eq_of_lt (by omega), Nat.mod_eq_of_lt (by omega), hend] at hstop
    have hlast := getLast?_of_stop htoken hstop
    rw [getLast?_of_stop hother hend, Option.some.injEq] at hlast
    rwa [← hlast]
  · intro hopen
    exact ⟨_, Diagnostic.mem_ofTokens_iff.mpr ⟨token, htoken, hopen, rfl⟩, rfl⟩

/-- Unless it is a single `#` or digit, a token whose text is scanned by itself is found again, and
there is a warning exactly when there was one about the token. A token that has to be closed starts
with an opener, and a proper beginning of it that holds the opener is scanned as one open
construct of the same kind. -/
theorem lex_text_of_mem_lex {attributes : Bool} {text : Text} {token : Token}
    (hsize : bytes text < UInt32.size) (htoken : token ∈ lex attributes text) :
    ((token.kind = .other → ∀ c ∈ token.text, c ≠ '#' ∧ c.isDigit = false) →
        lex attributes token.text = [{ token with start := 0 }] ∧
          (Diagnostic.ofTokens (lex attributes token.text) ≠ [] ↔
            token.IsReported (lex attributes text))) ∧
      (token.kind.openers ≠ [] → ∃ opener ∈ token.kind.openers, opener <+: token.text) ∧
      ∀ opener ∈ token.kind.openers, ∀ front, opener <+: front → front <+: token.text →
        front ≠ token.text →
          lex attributes front = [⟨token.rule, token.kind, 0, front, false⟩] ∧
            Diagnostic.ofTokens (lex attributes front) =
              [Diagnostic.unterminated token.kind (Span.ofRange 0 (bytes front))] := by
  have hreported : token.IsReported (lex attributes text) ↔ token.closed = false :=
    isReported_iff (by rwa [Nat.zero_add]) htoken
  have halone : token.kind.openers ≠ [] → next (Rule.inForce attributes Rule.all) .start 0
      token.text = { token with start := 0 } := by
    intro hopeners
    refine (next_text_of_mem_scan htoken fun hother => ?_).2
    rw [hother] at hopeners
    exact absurd rfl hopeners
  refine ⟨fun hother => ?_, fun hopeners => exists_opener_prefix (halone hopeners) hopeners,
    fun opener hopener front hbegin hfront hproper => ?_⟩
  · obtain ⟨hne, hnext⟩ := next_text_of_mem_scan htoken hother
    have hlex : lex attributes token.text = [{ token with start := 0 }] := by
      rw [lex, lexUnder, scan_eq_singleton hne (by rw [hnext]), hnext]
    refine ⟨hlex, ?_⟩
    rw [hlex, hreported]
    cases hclosed : token.closed with
    | true => simp [Diagnostic.ofTokens, Diagnostic.ofToken?]
    | false => simp [Diagnostic.ofTokens, Diagnostic.ofToken?]
  · have hnext := next_beginning (halone (List.ne_nil_of_mem hopener)) hopener hbegin hfront hproper
    have hne := Kind.ne_nil_of_opener_prefix hopener hbegin
    have hlex : lex attributes front = [⟨token.rule, token.kind, 0, front, false⟩] := by
      rw [lex, lexUnder, scan_eq_singleton hne (by rw [hnext]), hnext]
    refine ⟨hlex, ?_⟩
    rw [hlex, ← Nat.zero_add (bytes front)]
    rfl

/-- A string behind an encoding prefix, cut behind the escaped quote in it. -/
theorem lex_text_of_mem_lex_string :
    bytes "f(u8\"\\\"\")".toList < UInt32.size ∧
      ⟨some .string, .string, 2, "u8\"\\\"\"".toList, true⟩ ∈ lex true "f(u8\"\\\"\")".toList ∧
      lex true "u8\"\\\"\"".toList =
        [⟨some .string, .string, 0, "u8\"\\\"\"".toList, true⟩] ∧
      lex true "u8\"\\\"".toList = [⟨some .string, .string, 0, "u8\"\\\"".toList, false⟩] := by
  have hmem : ⟨some .string, .string, 2, "u8\"\\\"\"".toList, true⟩ ∈
      lex true "f(u8\"\\\"\")".toList := by
    decide +kernel
  obtain ⟨halone, -, hbeginning⟩ := lex_text_of_mem_lex (by decide) hmem
  refine ⟨by decide, hmem, (halone fun hother => nomatch hother).1, ?_⟩
  exact (hbeginning ['u', '8', '"'] (by decide) "u8\"\\\"".toList (by decide) (by decide)
    (by decide)).1

end Token

end CodeTint
