import CodeTint.Proofs.Relocation

/-!
# What more text can change

A warning says that a construct leaks into whatever follows. Without warnings a newline keeps the
text in front of it apart from what follows, unless the text ends in whitespace or in a directive
that a backslash continues. All but the last three tokens stay whatever follows.
-/

namespace CodeTint

open Text

/-- A warning is about an open token. -/
theorem Diagnostic.mem_ofTokens_iff {tokens : List Token} {diagnostic : Diagnostic} :
    diagnostic ∈ ofTokens tokens ↔
      ∃ token ∈ tokens, token.closed = false ∧
        diagnostic = unterminated token.kind token.span := by
  rw [ofTokens, List.mem_filterMap]
  refine exists_congr fun token => and_congr_right fun _ => ?_
  rw [ofToken?]
  cases token.closed with
  | true => simp
  | false => simp [eq_comm]

/-- Without warnings every token is closed. -/
theorem Diagnostic.closed_of_ofTokens_eq_nil {tokens : List Token} (h : ofTokens tokens = [])
    {token : Token} (htoken : token ∈ tokens) : token.closed = true := by
  cases hclosed : token.closed with
  | true => rfl
  | false =>
    have hmem := mem_ofTokens_iff.mpr ⟨token, htoken, hclosed, rfl⟩
    rw [h] at hmem
    cases hmem

namespace Token

open Scan

variable {table : List Rule} {context : Context} {start : Nat} {text : Text}

/-- An open token of a run is the beginning of a token that goes beyond the end when more text
follows. -/
theorem exists_longer_of_open {more : Text} {token : Token}
    (htoken : token ∈ scan table context start text) (hopen : token.closed = false)
    (hmore : more ≠ []) :
    ∃ longer ∈ scan table context start (text ++ more), longer.start = token.start ∧
      longer.kind = token.kind ∧ start + bytes text < longer.stop := by
  rcases scan_append table context start text more with happend | ⟨front, rest, kept, htorn⟩
  · -- the token would be open and still end in front of the additional text
    exfalso
    have hpos := bytes_pos hmore
    have hshort := stop_of_open htoken hopen
    have hlong := stop_of_open (happend ▸ List.mem_append_left _ htoken) hopen
    rw [bytes_append] at hlong
    omega
  · have heq := htorn.eq_next_of_open htoken hopen
    have hall : rest ++ more ≠ [] := List.append_ne_nil_of_left_ne_nil htorn.left more
    refine ⟨next table (context.after front) (start + bytes front) (rest ++ more), ?_, ?_, ?_,
      htorn.lt_stop_next⟩
    · rw [htorn.long, scan_of_ne_nil table _ _ hall]
      exact List.mem_append_right _ List.mem_cons_self
    · rw [heq, start_next, start_next]
    · rw [heq] at hopen ⊢
      exact ((next_of_overrun htorn.left htorn.beyond).2 hopen).symm

/-- A run that ends closed, not in whitespace and not in a directive with a backslash at its end
is not torn by a newline and what follows it. -/
theorem scan_append_newline (more : Text)
    (hclosed : ∀ token ∈ scan table context start text, token.closed = true)
    (hlast : ∀ token ∈ (scan table context start text).getLast?, token.kind ≠ .whitespace ∧
      ¬ (token.kind = .directive ∧ token.text.getLast? = some '\\')) :
    scan table context start (text ++ '\n' :: more) = scan table context start text ++
      scan table (context.after text) (start + bytes text) ('\n' :: more) := by
  rcases scan_append table context start text ('\n' :: more) with
    happend | ⟨front, rest, kept, htorn⟩
  · exact happend
  · exfalso
    obtain ⟨hwhole, hkind⟩ := next_of_beyond_newline htorn.left htorn.beyond
    have hshort := htorn.short
    rw [scan_of_ne_nil table _ _ htorn.left, hwhole, List.drop_length, scan_nil] at hshort
    have hlast' := hlast _ (by rw [hshort, List.getLast?_concat]; rfl)
    rcases hkind with hopen | hspace | hdirective
    · have htrue := hclosed _ (by rw [hshort]; exact List.mem_append_right _ List.mem_cons_self)
      exact absurd (hopen.symm.trans htrue) Bool.false_ne_true
    · exact hlast'.1 hspace
    · rw [hwhole] at hlast'
      exact hlast'.2 hdirective

/-- All but the last three tokens of a run stay when more text follows. -/
theorem take_scan_prefix (table : List Rule) (context : Context) (start : Nat)
    (text more : Text) :
    (scan table context start text).take ((scan table context start text).length - 3) <+:
      scan table context start (text ++ more) := by
  rcases scan_append table context start text more with happend | ⟨front, rest, kept, htorn⟩
  · rw [happend]
    exact (List.take_prefix _ _).trans (List.prefix_append _ _)
  · have hlen := htorn.length_short_le
    have hkept : (scan table context start text).take
        ((scan table context start text).length - 3) <+: kept := by
      rw [htorn.short] at hlen ⊢
      rw [List.take_append_of_le_length (by omega)]
      exact List.take_prefix _ _
    exact hkept.trans htorn.kept_prefix_long

/-- Text behind another can change its last three tokens only. -/
theorem take_lex_prefix (attributes : Bool) (text more : Text) :
    (lex attributes text).take ((lex attributes text).length - 3) <+:
      lex attributes (text ++ more) :=
  take_scan_prefix _ _ _ _ _

/-- Three is the right number: an exponent without its digits is scanned as three tokens. -/
example : (lex true "1e+".toList).length = 3 ∧ (lex true "1e+5".toList).length = 1 := by
  decide +kernel

/-- Without warnings the tokens of a text stay when a newline follows, and what follows is scanned
on its own, unless the text ends in whitespace or in a directive that a backslash continues. -/
theorem lex_append_newline {attributes : Bool} (more : Text)
    (hnone : Diagnostic.ofTokens (lex attributes text) = [])
    (hlast : ∀ token ∈ (lex attributes text).getLast?, token.kind ≠ .whitespace ∧
      ¬ (token.kind = .directive ∧ token.text.getLast? = some '\\')) :
    lex attributes (text ++ '\n' :: more) =
      lex attributes text ++ (lex attributes ('\n' :: more)).map (shift (bytes text)) := by
  have happend := scan_append_newline more
    (fun token htoken => Diagnostic.closed_of_ofTokens_eq_nil hnone htoken) hlast
  rw [scan_newline attributes _ .start, Nat.zero_add] at happend
  have hshift := scan_shift (Rule.inForce attributes Rule.all) .start (bytes text) 0
    ('\n' :: more)
  rw [Nat.add_zero] at hshift
  rw [hshift] at happend
  exact happend

/-- A warning means that its construct goes on into whatever follows, and without warnings a
newline keeps a text apart from what follows it, unless the text ends in whitespace or in a
directive that a backslash continues. -/
theorem diagnostic_means_leak (attributes : Bool) (text : Text) :
    (∀ diagnostic ∈ Diagnostic.ofTokens (lex attributes text),
        ∃ token ∈ lex attributes text,
          diagnostic = Diagnostic.unterminated token.kind token.span ∧
            ∀ more ≠ [], bytes text + bytes more < UInt32.size →
              ∃ longer ∈ lex attributes (text ++ more),
                longer.span.start = token.span.start ∧ longer.kind = token.kind ∧
                  bytes text < longer.span.stop.toNat) ∧
      (Diagnostic.ofTokens (lex attributes text) = [] →
        (∀ token ∈ (lex attributes text).getLast?, token.kind ≠ .whitespace ∧
          ¬ (token.kind = .directive ∧ token.text.getLast? = some '\\')) →
        ∀ more, lex attributes (text ++ '\n' :: more) =
          lex attributes text ++ (lex attributes ('\n' :: more)).map (shift (bytes text))) := by
  constructor
  · intro diagnostic hdiagnostic
    obtain ⟨token, htoken, hopen, rfl⟩ := Diagnostic.mem_ofTokens_iff.mp hdiagnostic
    refine ⟨token, htoken, rfl, fun more hmore hsize => ?_⟩
    obtain ⟨longer, hlonger, hstart, hkind, hstop⟩ := exists_longer_of_open htoken hopen hmore
    have hbounds := bounds_of_mem_scan hlonger
    refine ⟨longer, hlonger, ?_, hkind, ?_⟩
    · rw [span, span, hstart]
      rfl
    · rw [bytes_append] at hbounds
      rw [span, Span.stop_ofRange, Nat.mod_eq_of_lt (by omega)]
      omega
  · intro hnone hlast more
    exact lex_append_newline more hnone hlast

/-- An unclosed comment goes on into what follows, and a closed one in front of a newline stays. -/
theorem diagnostic_means_leak_comment :
    (Diagnostic.unterminated .blockComment ⟨2, 6⟩ ∈
        Diagnostic.ofTokens (lex true "x /* a".toList) ∧
      ∃ longer ∈ lex true ("x /* a".toList ++ "b */".toList),
        longer.span.start = 2 ∧ bytes "x /* a".toList < longer.span.stop.toNat) ∧
      Diagnostic.ofTokens (lex true "x /* a */".toList) = [] ∧
      lex true ("x /* a */".toList ++ '\n' :: "#y".toList) =
        lex true "x /* a */".toList ++ (lex true ('\n' :: "#y".toList)).map (shift 9) := by
  have hopen : Diagnostic.unterminated .blockComment ⟨2, 6⟩ ∈
      Diagnostic.ofTokens (lex true "x /* a".toList) := by
    decide +kernel
  have hnone : Diagnostic.ofTokens (lex true "x /* a */".toList) = [] := by
    decide +kernel
  refine ⟨⟨hopen, ?_⟩, hnone, ?_⟩
  · obtain ⟨token, -, hdiagnostic, hlonger⟩ := (diagnostic_means_leak true _).1 _ hopen
    obtain ⟨longer, hmem, hstart, -, hstop⟩ := hlonger "b */".toList (by decide) (by decide)
    have hspan := congrArg Diagnostic.span hdiagnostic
    simp only [Diagnostic.unterminated, Diagnostic.withCode, Diagnostic.warning,
      Option.some.injEq] at hspan
    rw [← hspan] at hstart
    exact ⟨longer, hmem, hstart, hstop⟩
  · exact (diagnostic_means_leak true "x /* a */".toList).2 hnone (by decide +kernel) _

end Token

end CodeTint
