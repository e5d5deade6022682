import CodeTint.Proofs.Continuation

/-!
# The switch for attributes

A rule that is not the first to answer can be left out of the table without being missed. The runs
over a text with and without a rule therefore go in step until that rule answers. With attributes
switched off, all tokens in front of the first attribute stay, and nothing changes in a text that
has none.
-/

namespace CodeTint

namespace Scan

variable {table : List Rule} {keep : Rule → Bool} {context : Context} {text : Text}

/-- The rule that answers first still does when others are left out. -/
theorem firstMatch?_filter_of_some {rule : Rule} {found : Match}
    (h : firstMatch? table context text = some (rule, found)) (hkeep : keep rule = true) :
    firstMatch? (table.filter keep) context text = some (rule, found) := by
  obtain ⟨before, behind, rfl, hfound, hbefore⟩ := firstMatch?_eq_some_iff.mp h
  refine firstMatch?_eq_some_iff.mpr ⟨before.filter keep, behind.filter keep, ?_, hfound, ?_⟩
  · rw [List.filter_append, List.filter_cons_of_pos hkeep]
  · exact fun other hother => hbefore other (List.mem_of_mem_filter hother)

/-- What every rule declines is declined when some are left out. -/
theorem firstMatch?_filter_of_none (h : firstMatch? table context text = none) :
    firstMatch? (table.filter keep) context text = none := by
  rw [firstMatch?_eq_none_iff] at h ⊢
  exact fun rule hrule => h rule (List.mem_of_mem_filter hrule)

end Scan

/-- No construct but an attribute has the code of an unclosed attribute. -/
theorem Diagnostic.unterminatedCode_ne {kind : Kind} (h : kind ≠ .attributeSpec) :
    unterminatedCode kind ≠ "W0005" := by
  revert h
  cases kind <;> decide

namespace Token

open Scan Text

section Filter

variable {table : List Rule} {keep : Rule → Bool} {context : Context} {start : Nat} {text : Text}

/-- The kind of the next token tells the rule that it comes from. -/
theorem rule_next : (next table context start text).rule =
    Rule.ofKind? (next table context start text).kind := by
  rcases next_cases table context start text with heq | ⟨rule, -, extent, -, -, heq⟩
  · rw [heq]
    rfl
  · rw [heq, Rule.ofKind?_kindOf]

/-- The next token comes from a rule of the table if it comes from any. -/
theorem mem_table_of_next {rule : Rule} (h : rule ∈ (next table context start text).rule) :
    rule ∈ table := by
  rcases next_cases table context start text with heq | ⟨first, hmem, extent, -, -, heq⟩
  · rw [heq] at h
    cases h
  · rw [heq] at h
    cases h
    exact hmem

/-- The next token stays when rules are left out that it does not come from. -/
theorem next_filter (h : ∀ rule ∈ (next table context start text).rule, keep rule = true) :
    next (table.filter keep) context start text = next table context start text := by
  cases hm : firstMatch? table context text with
  | none => rw [next_of_none start hm, next_of_none start (firstMatch?_filter_of_none hm)]
  | some answer =>
    obtain ⟨rule, found⟩ := answer
    rw [next_of_some start hm] at h ⊢
    rw [next_of_some start (firstMatch?_filter_of_some hm (h rule rfl))]

end Filter

/-- The runs over a text with all rules of a table and with those that are kept agree up to a token
that comes from a rule left out. -/
structure Parted (table : List Rule) (keep : Rule → Bool) (context : Context) (start : Nat)
    (text front rest : Text) (shared : List Token) : Prop where
  /-- Some of the text is left behind what both runs share. -/
  left : rest ≠ []
  /-- The run with all rules. -/
  full : scan table context start text =
    shared ++ scan table (context.after front) (start + bytes front) rest
  /-- The run with the rules that are kept. -/
  filtered : scan (table.filter keep) context start text =
    shared ++ scan (table.filter keep) (context.after front) (start + bytes front) rest
  /-- What both runs share ends with the front and comes from rules that are kept. -/
  settled : ∀ token ∈ shared, token.stop ≤ start + bytes front ∧
    ∀ rule ∈ token.rule, keep rule = true
  /-- The next token with all rules comes from a rule left out. -/
  refused : ∃ rule ∈ (next table (context.after front) (start + bytes front) rest).rule,
    keep rule = false

/-- Runs that part behind a first token from a rule that is kept part as a whole. -/
theorem Parted.cons {table : List Rule} {keep : Rule → Bool} {context : Context} {start : Nat}
    {text front rest : Text} {shared : List Token} (htext : text ≠ [])
    (hkeep : ∀ rule ∈ (next table context start text).rule, keep rule = true)
    (h : Parted table keep (context.after (next table context start text).text)
      (next table context start text).stop
      (text.drop (next table context start text).text.length) front rest shared) :
    Parted table keep context start text ((next table context start text).text ++ front) rest
      (next table context start text :: shared) := by
  have hcontext : context.after ((next table context start text).text ++ front) =
      (context.after (next table context start text).text).after front :=
    Context.after_append _ _ _
  have hstart : start + bytes ((next table context start text).text ++ front) =
      (next table context start text).stop + bytes front := by
    rw [bytes_append, stop, start_next, Nat.add_assoc]
  constructor
  · exact h.left
  · rw [scan_of_ne_nil table context start htext, h.full, hcontext, hstart, List.cons_append]
  · rw [scan_of_ne_nil _ context start htext, next_filter hkeep, h.filtered, hcontext, hstart,
      List.cons_append]
  · intro token htoken
    rw [hstart]
    rcases List.mem_cons.mp htoken with rfl | htoken
    · exact ⟨Nat.le_add_right _ _, hkeep⟩
    · exact h.settled token htoken
  · rw [hcontext, hstart]
    exact h.refused

/-- Leaving rules out changes nothing when no token comes from them, and otherwise the runs part at
the first one that does. -/
theorem scan_filter (table : List Rule) (keep : Rule → Bool) (context : Context) (start : Nat)
    (text : Text) :
    (scan (table.filter keep) context start text = scan table context start text ∧
        ∀ token ∈ scan table context start text, ∀ rule ∈ token.rule, keep rule = true) ∨
      ∃ front rest shared, Parted table keep context start text front rest shared := by
  induction context, start, text using scan_induction table with
  | nil context start =>
    left
    rw [scan_nil, scan_nil]
    exact ⟨rfl, fun token htoken => absurd htoken List.not_mem_nil⟩
  | cons context start text htext ih =>
    by_cases hkeep : ∀ rule ∈ (next table context start text).rule, keep rule = true
    · -- the first token stays, and the runs behind it decide
      rcases ih with ⟨heq, hall⟩ | ⟨front, rest, shared, ih⟩
      · left
        rw [scan_of_ne_nil _ context start htext, scan_of_ne_nil table context start htext,
          next_filter hkeep, heq]
        refine ⟨rfl, fun token htoken => ?_⟩
        rcases List.mem_cons.mp htoken with rfl | htoken
        · exact hkeep
        · exact hall token htoken
      · exact Or.inr ⟨_, rest, _, ih.cons htext hkeep⟩
    · right
      have hnone : ∀ token ∈ ([] : List Token), token.stop ≤ start + bytes [] ∧
          ∀ rule ∈ token.rule, keep rule = true :=
        fun token htoken => absurd htoken List.not_mem_nil
      simp only [not_forall, Bool.not_eq_true] at hkeep
      obtain ⟨rule, hrule, hrefused⟩ := hkeep
      exact ⟨[], text, [], htext, rfl, rfl, hnone, rule, hrule, hrefused⟩

/-- Where the first attribute of a text starts, and the end of the text if it has none. -/
def attributeStart (text : Text) : Nat :=
  (((lex true text).find? fun token => token.kind = .attributeSpec).map Token.start).getD
    (bytes text)

/-- With attributes every rule is in force. -/
theorem lex_true (text : Text) : lex true text = scan Rule.all .start 0 text := rfl

/-- Without attributes the rule for attributes is left out. -/
theorem lex_false (text : Text) :
    lex false text =
      scan (Rule.all.filter fun rule => rule ≠ .attributeSpec) .start 0 text := rfl

/-- Only attributes come from the rule for attributes. -/
theorem kind_ne_attribute_iff {table : List Rule} {context : Context} {start : Nat} {text : Text}
    {token : Token} (htoken : token ∈ scan table context start text) :
    (∀ rule ∈ token.rule, decide (rule ≠ .attributeSpec) = true) ↔
      token.kind ≠ .attributeSpec := by
  obtain ⟨front, rest, -, -, rfl⟩ := exists_next_of_mem_scan htoken
  rw [rule_next]
  cases (next table (context.after front) (start + bytes front) rest).kind <;> decide

/-- No token of a run ends where the run starts. -/
theorem filter_stop_le_start (table : List Rule) (context : Context) (start : Nat)
    (text : Text) :
    (scan table context start text).filter (fun token => token.stop ≤ start) = [] := by
  rw [List.filter_eq_nil_iff]
  intro token htoken
  have hbounds := bounds_of_mem_scan htoken
  rw [decide_eq_true_eq]
  omega

/-- Where the runs with and without attributes part, the next token is an attribute. -/
theorem Parted.kind_next {context : Context} {start : Nat} {text front rest : Text}
    {shared : List Token}
    (h : Parted Rule.all (fun rule => rule ≠ .attributeSpec) context start text front rest
      shared) :
    (next Rule.all (context.after front) (start + bytes front) rest).kind = .attributeSpec := by
  obtain ⟨rule, hrule, hrefused⟩ := h.refused
  rw [rule_next] at hrule
  revert hrule hrefused
  cases (next Rule.all (context.after front) (start + bytes front) rest).kind <;>
    cases rule <;> decide

/-- Where the runs with and without attributes part, the first attribute starts. -/
theorem Parted.attributeStart_eq {text front rest : Text} {shared : List Token}
    (h : Parted Rule.all (fun rule => rule ≠ .attributeSpec) .start 0 text front rest shared) :
    attributeStart text = 0 + bytes front := by
  have hshared : shared.find? (fun token => token.kind = .attributeSpec) = none := by
    rw [List.find?_eq_none]
    intro token htoken
    rw [decide_eq_true_eq]
    have hmem : token ∈ scan Rule.all .start 0 text := h.full ▸ List.mem_append_left _ htoken
    exact (kind_ne_attribute_iff hmem).mp (h.settled token htoken).2
  rw [attributeStart, lex_true, h.full, List.find?_append, hshared, Option.none_or,
    scan_of_ne_nil _ _ _ h.left, List.find?_cons_of_pos, Option.map_some, Option.getD_some,
    start_next]
  rw [decide_eq_true_eq]
  exact h.kind_next

/-- A text without attributes has the same tokens whether attributes are recognized or not. -/
theorem lex_false_of_no_attribute {text : Text}
    (h : ∀ token ∈ lex true text, token.kind ≠ .attributeSpec) :
    lex false text = lex true text := by
  rcases scan_filter Rule.all (fun rule => rule ≠ .attributeSpec) .start 0 text with
    ⟨heq, -⟩ | ⟨front, rest, shared, hparted⟩
  · exact heq
  · refine absurd hparted.kind_next (h _ ?_)
    rw [lex_true, hparted.full, scan_of_ne_nil _ _ _ hparted.left]
    exact List.mem_append_right _ List.mem_cons_self

/-- With and without attributes the tokens that end at or in front of the first attribute are the
same. In a text without attributes all tokens and warnings are the same, and without attributes
there are neither attributes nor warnings about them. -/
theorem lex_agree_until_attribute (text : Text) :
    (lex true text).filter (fun token => token.stop ≤ attributeStart text) =
        (lex false text).filter (fun token => token.stop ≤ attributeStart text) ∧
      ((∀ token ∈ lex true text, token.kind ≠ .attributeSpec) →
        lex true text = lex false text ∧
          Diagnostic.ofTokens (lex true text) = Diagnostic.ofTokens (lex false text)) ∧
      (∀ token ∈ lex false text, token.kind ≠ .attributeSpec) ∧
      ∀ diagnostic ∈ Diagnostic.ofTokens (lex false text), diagnostic.code ≠ some "W0005" := by
  have hnever : ∀ token ∈ lex false text, token.kind ≠ .attributeSpec := by
    intro token htoken
    rw [← kind_ne_attribute_iff htoken]
    intro rule hrule
    obtain ⟨front, rest, -, -, rfl⟩ := exists_next_of_mem_scan htoken
    exact (List.mem_filter.mp (mem_table_of_next hrule)).2
  have hwarnings : ∀ diagnostic ∈ Diagnostic.ofTokens (lex false text),
      diagnostic.code ≠ some "W0005" := by
    intro diagnostic hdiagnostic
    obtain ⟨token, htoken, -, rfl⟩ := Diagnostic.mem_ofTokens_iff.mp hdiagnostic
    exact fun hcode => Diagnostic.unterminatedCode_ne (hnever token htoken) (Option.some.inj hcode)
  rcases scan_filter Rule.all (fun rule => rule ≠ .attributeSpec) .start 0 text with
    ⟨heq, -⟩ | ⟨front, rest, shared, hparted⟩
  · rw [← lex_false, ← lex_true] at heq
    rw [← heq]
    exact ⟨rfl, fun _ => ⟨rfl, rfl⟩, hnever, hwarnings⟩
  · refine ⟨?_, fun hnone => ?_, hnever, hwarnings⟩
    · rw [hparted.attributeStart_eq, lex_true, lex_false, hparted.full, hparted.filtered,
        List.filter_append, List.filter_append, filter_stop_le_start, filter_stop_le_start]
    · refine absurd hparted.kind_next (hnone _ ?_)
      rw [lex_true, hparted.full, scan_of_ne_nil _ _ _ hparted.left]
      exact List.mem_append_right _ List.mem_cons_self

/-- A quote inside an attribute opens a string when attributes are switched off, and single
brackets are the same either way. -/
theorem lex_agree_until_attribute_quote :
    attributeStart "x [[y \"]]".toList = 2 ∧
      (lex false "x [[y \"]]".toList).filter (fun token => token.stop ≤ 2) =
        [⟨some .word, .identifier, 0, ['x'], true⟩,
          ⟨some .whitespace, .whitespace, 1, [' '], true⟩] ∧
      Diagnostic.unterminated .string ⟨6, 9⟩ ∈
        Diagnostic.ofTokens (lex false "x [[y \"]]".toList) ∧
      (Diagnostic.unterminated .string ⟨6, 9⟩).code ≠ some "W0005" ∧
      (∀ token ∈ lex true "x[y]".toList, token.kind ≠ .attributeSpec) ∧
      lex true "x[y]".toList = lex false "x[y]".toList := by
  have hstart : attributeStart "x [[y \"]]".toList = 2 := by
    decide +kernel
  have hmem : Diagnostic.unterminated .string ⟨6, 9⟩ ∈
      Diagnostic.ofTokens (lex false "x [[y \"]]".toList) := by
    decide +kernel
  have hnone : ∀ token ∈ lex true "x[y]".toList, token.kind ≠ .attributeSpec := by
    decide +kernel
  obtain ⟨hsame, -, -, hcodes⟩ := lex_agree_until_attribute "x [[y \"]]".toList
  rw [hstart] at hsame
  refine ⟨hstart, ?_, hmem, hcodes _ hmem, hnone, ?_⟩
  · rw [← hsame]
    decide +kernel
  · exact ((lex_agree_until_attribute "x[y]".toList).2.1 hnone).1

end Token

end CodeTint
