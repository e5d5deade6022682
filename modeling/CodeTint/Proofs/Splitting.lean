import CodeTint.Proofs.Merging
import CodeTint.Proofs.Relocation
import CodeTint.Highlight

/-!
# Cutting a text at the start of a line

When a token ends at the cut, the tokens in front of the cut are those of the first part. When
moreover only blanks stand on the line in front of the cut, the second part is scanned as if it
stood alone, so tokens, warnings and markup are those of the two parts.
-/

namespace CodeTint

open Text

namespace Token

open Scan

/-- When a token ends at the cut, the tokens of the first part come first and the second part is
scanned behind them. -/
theorem lex_append_of_cut {attributes : Bool} {first last : Text}
    (hsize : bytes first + bytes last < UInt32.size)
    (hcut : first = [] ∨
      ∃ token ∈ lex attributes (first ++ last), token.span.stop.toNat = bytes first) :
    lex attributes (first ++ last) = lex attributes first ++
      scan (Rule.inForce attributes Rule.all) (Context.start.after first) (bytes first) last := by
  rcases scan_append (Rule.inForce attributes Rule.all) .start 0 first last with
    happend | ⟨front, rest, kept, htorn⟩
  · rw [Nat.zero_add] at happend
    exact happend
  · exfalso
    rcases hcut with rfl | ⟨token, htoken, hstop⟩
    · exact htorn.left (List.append_eq_nil_iff.mp htorn.cut.symm).2
    · have hbounds := bounds_of_mem_scan htoken
      have hne := htorn.stop_ne htoken
      rw [bytes_append] at hbounds
      rw [span, Span.stop_ofRange, Nat.mod_eq_of_lt (by omega)] at hstop
      omega

/-- Behind a line of blanks a cut at the end of a token leaves two texts that are scanned each on
its own. -/
theorem lex_append_of_blank {attributes : Bool} {first last : Text}
    (hsize : bytes first + bytes last < UInt32.size)
    (hcut : first = [] ∨
      ∃ token ∈ lex attributes (first ++ last), token.span.stop.toNat = bytes first)
    (hblank : first.lastLine.all isBlank = true) :
    lex attributes (first ++ last) =
      lex attributes first ++ (lex attributes last).map (shift (bytes first)) := by
  rw [lex_append_of_cut hsize hcut, scan_after_blank hblank]
  rfl

end Token

namespace Markup

/-- The markup of a text is that of its tokens one by one. -/
theorem render_ofTokens (config : Config) (scheme : Scheme) (tokens : List Token) :
    render config (Fragment.ofTokens scheme tokens) =
      tokens.flatMap fun token => renderFragment config (Fragment.ofToken scheme token) := by
  rw [Fragment.ofTokens, render_mergePlain, render, List.flatMap_map]

/-- The markup of a run is that of its parts, wherever the second one stands. -/
theorem render_ofTokens_append_shift (config : Config) (scheme : Scheme) (first last : List Token)
    (offset : Nat) :
    render config (Fragment.ofTokens scheme (first ++ last.map (Token.shift offset))) =
      render config (Fragment.ofTokens scheme first) ++
        render config (Fragment.ofTokens scheme last) := by
  simp only [render_ofTokens, List.flatMap_append, List.flatMap_map]
  rfl

end Markup

/-- When a token ends at the cut and only blanks stand on the line in front of it, tokens, warnings
and markup of a text are those of its two parts, those of the second moved behind the first. -/
theorem highlight_append_of_blank (config : Config) {first last : Text}
    (hsize : bytes first + bytes last < UInt32.size)
    (hcut : first = [] ∨ ∃ token ∈ config.scheme.tokens (first ++ last),
      token.span.stop.toNat = bytes first)
    (hblank : first.lastLine.all isBlank = true) :
    config.scheme.tokens (first ++ last) =
        config.scheme.tokens first ++
          (config.scheme.tokens last).map (Token.shift (bytes first)) ∧
      (classify config.scheme (first ++ last)).diagnostics =
        (classify config.scheme first).diagnostics ++
          (classify config.scheme last).diagnostics.map (Diagnostic.shift (bytes first)) ∧
      highlight config (first ++ last) = highlight config first ++ highlight config last := by
  have htokens : config.scheme.tokens (first ++ last) = config.scheme.tokens first ++
      (config.scheme.tokens last).map (Token.shift (bytes first)) :=
    Token.lex_append_of_blank hsize hcut hblank
  refine ⟨htokens, ?_, ?_⟩
  · simp only [classify]
    rw [htokens, Diagnostic.ofTokens_append, Diagnostic.ofTokens_map_shift]
  · simp only [highlight, classify]
    rw [htokens, Markup.render_ofTokens_append_shift]

/-- A comment line in front of a directive. -/
theorem highlight_append_of_blank_directive :
    bytes "// c\n ".toList + bytes "#define A".toList < UInt32.size ∧
      (∃ token ∈ Config.standard.scheme.tokens ("// c\n ".toList ++ "#define A".toList),
        token.span.stop.toNat = bytes "// c\n ".toList) ∧
      (lastLine "// c\n ".toList).all isBlank = true ∧
      highlight .standard ("// c\n ".toList ++ "#define A".toList) =
        highlight .standard "// c\n ".toList ++ highlight .standard "#define A".toList := by
  have hcut : ∃ token ∈ Config.standard.scheme.tokens ("// c\n ".toList ++ "#define A".toList),
      token.span.stop.toNat = bytes "// c\n ".toList := by
    decide +kernel
  refine ⟨by decide, hcut, by decide, ?_⟩
  exact (highlight_append_of_blank .standard (by decide) (Or.inr hcut) (by decide)).2.2

end CodeTint
