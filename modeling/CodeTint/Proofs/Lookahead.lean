import CodeTint.Proofs.Clipping.Rule
import CodeTint.Token

/-!
# How far the next token looks ahead

When a text is cut short its next token stays the same if it ends before the cut. If it went
beyond the cut, the token found instead takes all that is left, up to a rest of at most two
characters that more text could still make part of it. A construct found open at the cut is the
beginning of the longer one.
-/

namespace CodeTint

namespace Scan

/-- The first answer is that of the first rule that does not decline. -/
theorem firstMatch?_eq_some_iff {table : List Rule} {context : Context} {text : Text}
    {rule : Rule} {found : Match} :
    firstMatch? table context text = some (rule, found) ↔
      ∃ before behind, table = before ++ rule :: behind ∧
        rule.scan? context text = some found ∧
        ∀ other ∈ before, other.scan? context text = none := by
  rw [firstMatch?, List.findSome?_eq_some_iff]
  constructor
  · rintro ⟨before, other, behind, rfl, hfound, hbefore⟩
    simp only [Option.map_eq_some_iff, Prod.mk.injEq] at hfound
    obtain ⟨found', hfound, rfl, rfl⟩ := hfound
    exact ⟨before, behind, rfl, hfound, fun other ho => by simpa using hbefore other ho⟩
  · rintro ⟨before, behind, rfl, hfound, hbefore⟩
    exact ⟨before, rule, behind, rfl, by rw [hfound, Option.map_some],
      fun other ho => by rw [hbefore other ho, Option.map_none]⟩

/-- A table declines a text when each of its rules does. -/
theorem firstMatch?_eq_none_iff {table : List Rule} {context : Context} {text : Text} :
    firstMatch? table context text = none ↔
      ∀ rule ∈ table, rule.scan? context text = none := by
  simp only [firstMatch?, List.findSome?_eq_none_iff, Option.map_eq_none_iff]

/-- A text that is declined is declined when it is cut short. -/
theorem firstMatch?_eq_none_of_append {table : List Rule} {context : Context} {text more : Text}
    (h : firstMatch? table context (text ++ more) = none) :
    firstMatch? table context text = none := by
  rw [firstMatch?_eq_none_iff] at h ⊢
  exact fun rule hrule => Rule.scan?_eq_none_of_append (h rule hrule)

/-- The rules in front of the first one that answers decline the text cut short as well, so an
answer of that rule is the first answer. -/
theorem firstMatch?_of_append {table : List Rule} {context : Context} {text more : Text}
    {rule : Rule} {found short : Match}
    (h : firstMatch? table context (text ++ more) = some (rule, found))
    (hshort : rule.scan? context text = some short) :
    firstMatch? table context text = some (rule, short) := by
  obtain ⟨before, behind, htable, -, hbefore⟩ := firstMatch?_eq_some_iff.mp h
  exact firstMatch?_eq_some_iff.mpr ⟨before, behind, htable, hshort,
    fun other ho => Rule.scan?_eq_none_of_append (hbefore other ho)⟩

/-- What is left behind a token although more text could make it part of the token. -/
def undecidedRests : List Text :=
  [] :: ['8'] :: Number.pendingRests

/-- An undecided rest has at most two characters. -/
theorem length_le_two_of_undecided {rest : Text} (h : rest ∈ undecidedRests) :
    rest.length ≤ 2 := by
  revert rest
  decide

/-- An undecided rest holds no opener. -/
theorem not_opener_prefix_of_undecided {rest text opener : Text} (h : rest ∈ undecidedRests)
    (htext : text <:+ rest) (hopener : opener ∈ Rule.allOpeners) : ¬ opener <+: text := by
  have hall : ∀ rest ∈ undecidedRests, ∀ taken ≤ rest.length, ∀ opener ∈ Rule.allOpeners,
      ¬ opener <+: rest.drop taken := by decide
  rw [List.suffix_iff_eq_drop.mp htext]
  exact hall rest h _ (Nat.sub_le _ _) opener hopener

end Scan

namespace Token

open Scan

/-- The next token where a rule answers. -/
theorem next_of_some {table : List Rule} {context : Context} {text : Text} {rule : Rule}
    {found : Match} (start : Nat)
    (h : firstMatch? table context text = some (rule, found)) :
    next table context start text =
      ⟨some rule, found.kind, start, text.take found.extent.length, found.extent.closed⟩ := by
  rw [next, h]

/-- The next token where no rule answers. -/
theorem next_of_none {table : List Rule} {context : Context} {text : Text} (start : Nat)
    (h : firstMatch? table context text = none) :
    next table context start text = ⟨none, .other, start, text.take 1, true⟩ := by
  rw [next, h]
  rfl

/-- The next token is a single ordinary character, or what a rule of the table reaches. -/
theorem next_cases (table : List Rule) (context : Context) (start : Nat) (text : Text) :
    next table context start text = ⟨none, .other, start, text.take 1, true⟩ ∨
      ∃ rule ∈ table, ∃ extent, rule.reach? context text = some extent ∧ extent.Fits text ∧
        next table context start text =
          ⟨some rule, rule.kindOf (text.take extent.length), start, text.take extent.length,
            extent.closed⟩ := by
  cases hm : firstMatch? table context text with
  | none => exact Or.inl (next_of_none start hm)
  | some answer =>
    obtain ⟨rule, found⟩ := answer
    have hfits := firstMatch?_fits hm
    obtain ⟨before, behind, rfl, hfound, -⟩ := firstMatch?_eq_some_iff.mp hm
    rw [Rule.scan?_eq, Option.map_eq_some_iff] at hfound
    obtain ⟨extent, hextent, rfl⟩ := hfound
    exact Or.inr ⟨rule, List.mem_append_right _ List.mem_cons_self, extent, hextent, hfits,
      next_of_some start hm⟩

/-- The rule that produces tokens of the kind of the next one has produced it. -/
theorem exists_reach_of_kind {table : List Rule} {context : Context} {start : Nat} {text : Text}
    (rule : Rule) (h : rule ∈ Rule.ofKind? (next table context start text).kind) :
    ∃ extent, rule.reach? context text = some extent ∧ extent.Fits text ∧
      next table context start text =
        ⟨some rule, rule.kindOf (text.take extent.length), start, text.take extent.length,
          extent.closed⟩ := by
  rcases next_cases table context start text with heq | ⟨other, -, extent, hextent, hfits, heq⟩
  · rw [heq] at h
    cases h
  · rw [heq, Rule.ofKind?_kindOf] at h
    obtain rfl : other = rule := Option.some.inj h
    exact ⟨extent, hextent, hfits, heq⟩

/-- No rule answers where the next token is ordinary. -/
theorem firstMatch?_eq_none_of_other {table : List Rule} {context : Context} {start : Nat}
    {text : Text} (h : (next table context start text).kind = .other) :
    firstMatch? table context text = none := by
  cases hm : firstMatch? table context text with
  | none => rfl
  | some answer =>
    obtain ⟨-, -, -, hfound, -⟩ := firstMatch?_eq_some_iff.mp hm
    have hrule := Rule.ofKind?_scan? hfound
    rw [next_of_some start hm] at h
    rw [show answer.2.kind = .other from h] at hrule
    cases hrule

/-- A token takes as many characters as its rule reaches. -/
theorem length_next_of_some {table : List Rule} {context : Context} {text : Text} {rule : Rule}
    {found : Match} (start : Nat)
    (h : firstMatch? table context text = some (rule, found)) :
    (next table context start text).text.length = found.extent.length := by
  rw [next_of_some start h]
  exact List.length_take_of_le (firstMatch?_fits h).within

/-- A token that ends before the cut is the next token of the text cut short. -/
theorem next_of_append {table : List Rule} {context : Context} {start : Nat} {text more : Text}
    (htext : text ≠ [])
    (hle : (next table context start (text ++ more)).text.length ≤ text.length) :
    next table context start text = next table context start (text ++ more) := by
  cases hm : firstMatch? table context (text ++ more) with
  | none =>
    have hlen := List.length_pos_iff.mpr htext
    rw [next_of_none start hm, next_of_none start (firstMatch?_eq_none_of_append hm),
      List.take_append_of_le_length hlen]
  | some answer =>
    obtain ⟨rule, found⟩ := answer
    rw [length_next_of_some start hm] at hle
    obtain ⟨_, _, _, hfound, _⟩ := firstMatch?_eq_some_iff.mp hm
    have hshort := firstMatch?_of_append hm (Rule.scan?_of_append hfound hle)
    rw [next_of_some start hm, next_of_some start hshort, List.take_append_of_le_length hle]

/-- A token that goes beyond the cut comes from a rule that reaches beyond it. -/
theorem exists_rule_of_overrun {table : List Rule} {context : Context} {start : Nat}
    {text more : Text} (htext : text ≠ [])
    (hlt : text.length < (next table context start (text ++ more)).text.length) :
    ∃ rule found, firstMatch? table context (text ++ more) = some (rule, found) ∧
      text.length < found.extent.length := by
  cases hm : firstMatch? table context (text ++ more) with
  | none =>
    have hlen := List.length_pos_iff.mpr htext
    rw [next_of_none start hm, List.length_take] at hlt
    omega
  | some answer =>
    rw [length_next_of_some start hm] at hlt
    exact ⟨answer.1, answer.2, rfl, hlt⟩

/-- An open token comes from a rule of the table and takes all of its text. -/
theorem exists_rule_of_open_next {table : List Rule} {context : Context} {start : Nat}
    {text : Text} (h : (next table context start text).closed = false) :
    ∃ (rule : Rule) (extent : Extent), rule.reach? context text = some extent ∧
      extent.closed = false ∧
      (next table context start text).kind = rule.kindOf text ∧
      (next table context start text).text = text := by
  rcases next_cases table context start text with heq | ⟨rule, -, extent, hextent, hfits, heq⟩
  · rw [heq] at h
    cases h
  · rw [heq] at h ⊢
    rw [hfits.whole h, List.take_length]
    exact ⟨rule, extent, hextent, h, rfl, rfl⟩

/-- An open token has one of the openers at its front. -/
theorem exists_opener_of_open_next {table : List Rule} {context : Context} {start : Nat}
    {text : Text} (h : (next table context start text).closed = false) :
    ∃ opener ∈ Rule.allOpeners, opener <+: text := by
  obtain ⟨rule, extent, hextent, hopen, -, -⟩ := exists_rule_of_open_next h
  exact Rule.exists_opener_of_open hextent hopen

/-- An open token takes all of its text. -/
theorem text_next_of_open {table : List Rule} {context : Context} {start : Nat} {text : Text}
    (h : (next table context start text).closed = false) :
    (next table context start text).text = text := by
  obtain ⟨-, -, -, -, -, hall⟩ := exists_rule_of_open_next h
  exact hall

/-- A text that ends inside an opener has a closed next token with an undecided rest behind it. -/
theorem next_of_endsInside (table : List Rule) (context : Context) (start : Nat) {text : Text}
    {rule : Rule} (htext : text ≠ []) (h : EndsInside rule.openers text) :
    (next table context start text).closed = true ∧
      text.drop (next table context start text).text.length ∈ undecidedRests := by
  constructor
  · cases hc : (next table context start text).closed with
    | true => rfl
    | false =>
      obtain ⟨opener, hopener, hbegin⟩ := exists_opener_of_open_next hc
      exact absurd hbegin (Rule.not_opener_prefix h hopener)
  · have hpos := List.length_pos_iff.mpr (text_next table context start htext).1
    have hdrop : text.drop (next table context start text).text.length =
        (text.drop 1).drop ((next table context start text).text.length - 1) := by
      rw [List.drop_drop]
      congr 1
      omega
    have hall : ∀ rest ∈ [[], ['8']], ∀ taken, rest.drop taken ∈ undecidedRests := by
      intro rest hrest taken
      simp only [List.mem_cons, List.not_mem_nil, or_false] at hrest
      rcases hrest with rfl | rfl <;> cases taken <;> simp [undecidedRests]
    rw [hdrop]
    exact hall _ (Rule.drop_one_of_endsInside h) _

/-- When a token goes beyond the cut, the next token of the text cut short leaves an undecided
rest, and it has the same kind if it is found open. -/
theorem next_of_overrun {table : List Rule} {context : Context} {start : Nat}
    {text more : Text} (htext : text ≠ [])
    (hlt : text.length < (next table context start (text ++ more)).text.length) :
    text.drop (next table context start text).text.length ∈ undecidedRests ∧
      ((next table context start text).closed = false →
        (next table context start text).kind = (next table context start (text ++ more)).kind) := by
  obtain ⟨rule, found, hm, hfar⟩ := exists_rule_of_overrun htext hlt
  obtain ⟨_, _, _, hfound, _⟩ := firstMatch?_eq_some_iff.mp hm
  rcases Rule.scan?_of_overrun hfound hfar with hall | hnil | hinside | ⟨rfl, length, hlength, hp⟩
  · -- the rule takes all that is left
    rw [next_of_some start (firstMatch?_of_append hm hall), next_of_some start hm]
    refine ⟨?_, fun hopen => ?_⟩
    · rw [List.take_length, List.drop_length]
      exact List.mem_cons_self
    · rw [Rule.scan?_eq, Option.map_eq_some_iff] at hfound
      obtain ⟨extent, -, rfl⟩ := hfound
      exact Rule.kindOf_eq hopen _ _
  · exact absurd hnil htext
  · obtain ⟨hclosed, hrest⟩ := next_of_endsInside table context start htext hinside
    exact ⟨hrest, fun hopen => absurd (hclosed.symm.trans hopen) Bool.true_eq_false.mp⟩
  · -- a number that could have gone on is closed where it stopped
    have hnext := next_of_some start (firstMatch?_of_append hm (Rule.scan?_number hfound hlength))
    rw [hnext]
    refine ⟨?_, fun hopen => absurd hopen Bool.true_eq_false.mp⟩
    change text.drop (text.take length).length ∈ undecidedRests
    rw [List.length_take_of_le (Number.length?_bound hlength).2]
    exact List.mem_cons_of_mem _ (List.mem_cons_of_mem _ hp)

/-- A token that goes beyond a newline takes all of the text in front of it when the text is cut
there, and then it is open, whitespace, or a directive that ends in a backslash. -/
theorem next_of_beyond_newline {table : List Rule} {context : Context} {start : Nat}
    {text more : Text} (htext : text ≠ [])
    (hlt : text.length < (next table context start (text ++ '\n' :: more)).text.length) :
    (next table context start text).text = text ∧
      ((next table context start text).closed = false ∨
        (next table context start text).kind = .whitespace ∨
        ((next table context start text).kind = .directive ∧ text.getLast? = some '\\')) := by
  obtain ⟨rule, found, hm, hfar⟩ := exists_rule_of_overrun htext hlt
  obtain ⟨_, _, _, hfound, _⟩ := firstMatch?_eq_some_iff.mp hm
  have hall := Rule.scan?_of_overrun hfound hfar
  rw [Rule.scan?_eq, Option.map_eq_some_iff] at hfound
  obtain ⟨extent, hextent, rfl⟩ := hfound
  replace hall := hall.resolve_right (Rule.not_short_of_beyond_newline htext hextent hfar)
  rw [next_of_some start (firstMatch?_of_append hm hall)]
  refine ⟨List.take_length, ?_⟩
  rcases Rule.beyond_newline htext hextent hfar with hends | rfl | ⟨rfl, hlast⟩
  · exact Or.inl hends
  · exact Or.inr (Or.inl rfl)
  · exact Or.inr (Or.inr ⟨rfl, hlast⟩)

end Token

end CodeTint
