import CodeTint.Highlight
import CodeTint.Proofs.Continuation
import CodeTint.Proofs.Merging

/-!
# The warning of a text

An open construct takes all the text that is left, so no token stands behind it. A text therefore
has at most one warning. It is about the last token, and its code tells which of the constructs
that have to be closed this token is.
-/

namespace CodeTint

namespace Diagnostic

open Scan

/-- The constructs that have to be closed, each with the code of its warning. -/
def closingCodes : List (Kind × String) :=
  [(.blockComment, "W0001"), (.string, "W0002"), (.character, "W0003"), (.rawString, "W0004"),
    (.attributeSpec, "W0005")]

/-- The warnings of a run are those about its last token. -/
theorem ofTokens_scan (table : List Rule) (context : Context) (start : Nat) (text : Text) :
    ofTokens (Token.scan table context start text) =
      ((Token.scan table context start text).getLast?.bind ofToken?).toList := by
  rcases (Token.scan table context start text).eq_nil_or_concat with hnil | ⟨front, last, hlast⟩
  · rw [hnil]
    rfl
  · rw [List.concat_eq_append] at hlast
    have hfront : ofTokens front = [] := by
      refine List.filterMap_eq_nil_iff.mpr fun token htoken => ?_
      rw [ofToken?, Token.closed_of_mem_front hlast htoken, if_pos rfl]
    rw [hlast, ofTokens_append, hfront, List.getLast?_concat]
    cases hwarning : ofToken? last with
    | none => simp [ofTokens, hwarning]
    | some warning => simp [ofTokens, hwarning]

/-- The code of the warning about an open token tells which construct it is. -/
theorem code_mem_closingCodes {table : List Rule} {context : Context} {start : Nat}
    {text : Text} {token : Token} (htoken : token ∈ Token.scan table context start text)
    (hopen : token.closed = false) :
    (token.kind, unterminatedCode token.kind) ∈ closingCodes := by
  have hall : ∀ rule ∈ Rule.all, rule.endsWithText = false →
      (rule.kindOf [], unterminatedCode (rule.kindOf [])) ∈ closingCodes := by
    decide
  obtain ⟨front, rest, -, -, rfl⟩ := Token.exists_next_of_mem_scan htoken
  obtain ⟨rule, extent, hextent, hopen', hkind, -⟩ := Token.exists_rule_of_open_next hopen
  have hends := Rule.endsWithText_of_open hextent hopen'
  rw [hkind, Rule.kindOf_eq hends rest []]
  exact hall rule (Rule.mem_all rule) hends

/-- No scheme shows a construct that has to be closed as plain text. -/
theorem not_plain_of_mem_closingCodes (scheme : Scheme) {kind : Kind} {code : String}
    (h : (kind, code) ∈ closingCodes) : (scheme.categorize kind).isPlain = false := by
  have hall : ∀ entry ∈ closingCodes, (scheme.categorize entry.1).isPlain = false := by
    cases scheme <;> decide
  exact hall _ h

end Diagnostic

open Text

/-- A text has at most one warning. It is about the last token, which ends with the text, and has
the code of the construct that this token is; the token is the last fragment, alone and
classified. -/
theorem diagnostics_about_last_token (scheme : Scheme) {text : Text}
    (hsize : bytes text < UInt32.size) :
    (Diagnostic.ofTokens (scheme.tokens text)).length ≤ 1 ∧
      ∀ diagnostic ∈ Diagnostic.ofTokens (scheme.tokens text),
        ∃ last, (scheme.tokens text).getLast? = some last ∧
          diagnostic.span = some last.span ∧ last.span.stop.toNat = bytes text ∧
          (∃ code, diagnostic.code = some code ∧
            (last.kind, code) ∈ Diagnostic.closingCodes) ∧
          (classify scheme text).fragments.getLast? = some (Fragment.ofToken scheme last) ∧
          (Fragment.ofToken scheme last).isPlain = false := by
  have hwarnings : Diagnostic.ofTokens (scheme.tokens text) =
      ((scheme.tokens text).getLast?.bind Diagnostic.ofToken?).toList :=
    Diagnostic.ofTokens_scan _ _ _ _
  constructor
  · rw [hwarnings]
    exact Option.length_toList_le
  · intro diagnostic hdiagnostic
    rw [hwarnings, Option.mem_toList, Option.bind_eq_some_iff] at hdiagnostic
    obtain ⟨last, hlast, hwarning⟩ := hdiagnostic
    obtain ⟨front, htokens⟩ := List.getLast?_eq_some_iff.mp hlast
    have hmem : last ∈ scheme.tokens text := List.mem_of_getLast? hlast
    rw [Diagnostic.ofToken?] at hwarning
    split at hwarning
    · cases hwarning
    · next hopen =>
      cases hwarning
      rw [Bool.not_eq_true] at hopen
      have hcode := Diagnostic.code_mem_closingCodes hmem hopen
      have hplain : (Fragment.ofToken scheme last).isPlain = false :=
        Diagnostic.not_plain_of_mem_closingCodes scheme hcode
      have hstop : last.stop = 0 + bytes text := Token.stop_of_open hmem hopen
      refine ⟨last, hlast, rfl, ?_, ⟨_, rfl, hcode⟩, ?_, hplain⟩
      · rw [Token.span, Span.stop_ofRange, hstop, Nat.zero_add, Nat.mod_eq_of_lt hsize]
      · rw [classify]
        dsimp only
        rw [Fragment.ofTokens, htokens, List.map_append, List.map_singleton,
          Fragment.mergePlain_append_cons _ hplain,
          List.getLast?_append_of_ne_nil _ (List.cons_ne_nil _ _)]
        rfl

/-- An unclosed string is the last fragment, behind plain text that is joined. -/
theorem diagnostics_about_last_token_string :
    bytes "f(\"a\\\"".toList < UInt32.size ∧
      Diagnostic.unterminated .string ⟨2, 6⟩ ∈
        Diagnostic.ofTokens (Scheme.stringOnly.tokens "f(\"a\\\"".toList) ∧
      (Diagnostic.ofTokens (Scheme.stringOnly.tokens "f(\"a\\\"".toList)).length ≤ 1 ∧
      (classify .stringOnly "f(\"a\\\"".toList).fragments.getLast? =
        some ⟨.string, ⟨2, 6⟩, "\"a\\\"".toList⟩ := by
  have hmem : Diagnostic.unterminated .string ⟨2, 6⟩ ∈
      Diagnostic.ofTokens (Scheme.stringOnly.tokens "f(\"a\\\"".toList) := by
    decide +kernel
  have hlast : (Scheme.stringOnly.tokens "f(\"a\\\"".toList).getLast? =
      some ⟨some .string, .string, 2, "\"a\\\"".toList, false⟩ := by
    decide +kernel
  obtain ⟨hone, hall⟩ := diagnostics_about_last_token .stringOnly
    (by decide : bytes "f(\"a\\\"".toList < UInt32.size)
  obtain ⟨last, htoken, -, -, -, hfragment, -⟩ := hall _ hmem
  rw [hlast, Option.some.injEq] at htoken
  refine ⟨by decide, hmem, hone, ?_⟩
  rw [hfragment, ← htoken]
  decide

end CodeTint
