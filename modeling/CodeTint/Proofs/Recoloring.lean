import CodeTint.Highlight
import CodeTint.Proofs.AttributeSwitch
import CodeTint.Proofs.Merging

/-!
# Schemes as views of one another

A change of categories can be applied to fragments that are joined already. Where it shows more of
them as plain text, joining once more gives the fragments of the changed tokens. The scheme that
tells strings from numbers therefore determines the other two: merging its literals gives the
first, and hiding its numbers gives the one without attributes on every text that has none.
-/

namespace CodeTint

namespace Category

/-- Strings and numbers are both shown as literals. -/
def mergeLiterals : Category → Category
  | string | number => literal
  | category => category

/-- Numbers are shown as plain text. -/
def hideNumbers : Category → Category
  | number => plain
  | category => category

/-- Merging literals makes nothing plain that was not. -/
theorem isPlain_mergeLiterals (category : Category) :
    category.mergeLiterals.isPlain = category.isPlain := by
  cases category <;> rfl

end Category

namespace Fragment

/-- The same piece of text in the category that replaces its own. -/
def recolor (change : Category → Category) (fragment : Fragment) : Fragment :=
  { fragment with category := change fragment.category }

/-- The first of two joined fragments decides the category, before and after a change. -/
theorem recolor_join (change : Category → Category) (first last : Fragment) :
    (first.join last).recolor change = (first.recolor change).join (last.recolor change) := rfl

/-- Joining three neighbours goes in either order. -/
theorem join_assoc (first second third : Fragment) :
    (first.join second).join third = first.join (second.join third) := by
  simp only [join, Span.cover, List.append_assoc]

/-- Two plain neighbours are put in front one after the other as they are when joined. -/
theorem mergeOnto_join {first second : Fragment} (hfirst : first.isPlain = true)
    (hsecond : second.isPlain = true) (fragments : List Fragment) :
    (first.join second).mergeOnto fragments = first.mergeOnto (second.mergeOnto fragments) := by
  have hjoin : (first.join second).isPlain = true := hfirst
  cases fragments with
  | nil => simp only [mergeOnto, hfirst, hsecond, Bool.and_self, if_true]
  | cons next rest =>
    cases hnext : next.isPlain with
    | false =>
      simp only [mergeOnto, hjoin, hfirst, hsecond, hnext, Bool.and_false, Bool.and_self,
        Bool.false_eq_true, if_false, if_true]
    | true =>
      have hbehind : (second.join next).isPlain = true := hsecond
      simp only [mergeOnto, hjoin, hfirst, hsecond, hnext, hbehind, Bool.and_self, if_true,
        join_assoc]

/-- Fragments that are apart already are not changed by joining. -/
theorem mergePlain_of_isChain {fragments : List Fragment} (h : fragments.IsChain Apart) :
    mergePlain fragments = fragments := by
  induction fragments with
  | nil => rfl
  | cons fragment fragments ih =>
    rw [List.isChain_cons] at h
    rw [mergePlain, List.foldr_cons, ← mergePlain, ih h.2]
    rcases mergeOnto_eq_or fragment fragments with ⟨heq, -⟩ | ⟨next, rest, rfl, hplain, hnext, -⟩
    · exact heq
    · exact absurd ⟨hplain, hnext⟩ (h.1 next rfl)

section Change

variable {change : Category → Category}

/-- Joining before a change that keeps plain text plain does not show once the changed fragments
are joined. -/
theorem mergePlain_recolor_mergePlain (hplain : change .plain = .plain)
    (fragments : List Fragment) :
    mergePlain ((mergePlain fragments).map (recolor change)) =
      mergePlain (fragments.map (recolor change)) := by
  have hkept : ∀ {fragment : Fragment}, fragment.isPlain = true →
      (fragment.recolor change).isPlain = true := by
    intro fragment hfragment
    rw [isPlain, Category.isPlain, decide_eq_true_eq] at hfragment ⊢
    rw [recolor, hfragment, hplain]
  induction fragments with
  | nil => rfl
  | cons fragment fragments ih =>
    have hgoal : mergePlain ((fragment :: fragments).map (recolor change)) =
        (fragment.recolor change).mergeOnto (mergePlain (fragments.map (recolor change))) := rfl
    have hmerge : mergePlain (fragment :: fragments) =
        fragment.mergeOnto (mergePlain fragments) := rfl
    rw [hgoal, hmerge, ← ih]
    rcases mergeOnto_eq_or fragment (mergePlain fragments) with
      ⟨heq, -⟩ | ⟨next, rest, hbehind, hfirst, hnext, heq⟩
    · rw [heq]
      rfl
    · -- two fragments were joined before the change, so their changed forms are joined behind it
      rw [heq, hbehind, List.map_cons, List.map_cons, recolor_join]
      exact mergeOnto_join (hkept hfirst) (hkept hnext) _

/-- A change that makes nothing plain that was not keeps fragments apart. -/
theorem isChain_recolor (hkept : ∀ category, (change category).isPlain = category.isPlain)
    {fragments : List Fragment} (h : fragments.IsChain Apart) :
    (fragments.map (recolor change)).IsChain Apart := by
  rw [List.isChain_map]
  refine h.imp fun first last hapart hboth => hapart ?_
  rwa [isPlain, isPlain, recolor, recolor, hkept, hkept] at hboth

/-- When one scheme changes the categories of another, its fragments of some tokens are those of
the other one changed and joined. -/
theorem ofTokens_recolor {first second : Scheme} (hplain : change .plain = .plain)
    (hchange : ∀ kind, second.categorize kind = change (first.categorize kind))
    (tokens : List Token) :
    ofTokens second tokens = mergePlain ((ofTokens first tokens).map (recolor change)) := by
  have htokens : tokens.map (ofToken second) = (tokens.map (ofToken first)).map (recolor change) := by
    rw [List.map_map]
    refine List.map_congr_left fun token _ => ?_
    rw [Function.comp_apply, ofToken, hchange]
    rfl
  rw [ofTokens, htokens, ofTokens, mergePlain_recolor_mergePlain hplain]

end Change

/-- A classified token is a fragment of its own. -/
theorem ofToken_mem_ofTokens {scheme : Scheme} {tokens : List Token} {token : Token}
    (htoken : token ∈ tokens) (hplain : (ofToken scheme token).isPlain = false) :
    ofToken scheme token ∈ ofTokens scheme tokens := by
  obtain ⟨front, behind, rfl⟩ := List.append_of_mem htoken
  rw [ofTokens, List.map_append, List.map_cons, mergePlain_append_cons _ hplain]
  exact List.mem_append_right _ List.mem_cons_self

/-- Text that is shown without attributes has no attributes among its tokens. -/
theorem no_attribute_of_ofTokens {tokens : List Token}
    (h : ∀ fragment ∈ ofTokens .split tokens, fragment.category ≠ .attributeSpec) :
    ∀ token ∈ tokens, token.kind ≠ .attributeSpec := by
  intro token htoken hkind
  have hcategory : (ofToken .split token).category = .attributeSpec := by
    rw [ofToken, hkind]
    rfl
  have hplain : (ofToken .split token).isPlain = false := by
    rw [isPlain, hcategory]
    rfl
  exact h _ (ofToken_mem_ofTokens htoken hplain) hcategory

end Fragment

/-- The scheme that merges literals shows every text as the one that tells strings from numbers
does, with both shown as literals. Where no attribute is shown, the scheme without numbers and
attributes shows the text as that one does with its numbers made plain and joined to their plain
neighbours. Spans, texts and warnings are the same each time. -/
theorem schemes_show_alike (text : Text) :
    (classify .literal text).fragments =
        (classify .split text).fragments.map (Fragment.recolor Category.mergeLiterals) ∧
      (classify .literal text).diagnostics = (classify .split text).diagnostics ∧
      ((∀ fragment ∈ (classify .split text).fragments, fragment.category ≠ .attributeSpec) →
        (classify .stringOnly text).fragments =
            Fragment.mergePlain
              ((classify .split text).fragments.map (Fragment.recolor Category.hideNumbers)) ∧
          (classify .stringOnly text).diagnostics = (classify .split text).diagnostics) := by
  refine ⟨?_, rfl, fun hnone => ?_⟩
  · have hchange : ∀ kind, Scheme.literal.categorize kind =
        (Scheme.split.categorize kind).mergeLiterals := by
      intro kind
      cases kind <;> rfl
    have hapart : ((classify .split text).fragments.map
        (Fragment.recolor Category.mergeLiterals)).IsChain Fragment.Apart :=
      Fragment.isChain_recolor Category.isPlain_mergeLiterals (Fragment.isChain_mergePlain _)
    have htokens : (classify .literal text).fragments =
        Fragment.mergePlain ((classify .split text).fragments.map
          (Fragment.recolor Category.mergeLiterals)) :=
      Fragment.ofTokens_recolor rfl hchange _
    rw [htokens, Fragment.mergePlain_of_isChain hapart]
  · have hchange : ∀ kind, Scheme.stringOnly.categorize kind =
        (Scheme.split.categorize kind).hideNumbers := by
      intro kind
      cases kind <;> rfl
    have htokens : Scheme.stringOnly.tokens text = Scheme.split.tokens text :=
      Token.lex_false_of_no_attribute (Fragment.no_attribute_of_ofTokens hnone)
    constructor
    · rw [classify]
      dsimp only
      rw [htokens]
      exact Fragment.ofTokens_recolor rfl hchange _
    · rw [classify, classify]
      dsimp only
      rw [htokens]

/-- A number between plain tokens disappears in them, while a string stays apart. -/
theorem schemes_show_alike_number :
    (∀ fragment ∈ (classify .split "a=1;\"b\"".toList).fragments,
        fragment.category ≠ .attributeSpec) ∧
      (classify .split "a=1;\"b\"".toList).fragments =
        [⟨.plain, ⟨0, 2⟩, "a=".toList⟩, ⟨.number, ⟨2, 3⟩, "1".toList⟩,
          ⟨.plain, ⟨3, 4⟩, ";".toList⟩, ⟨.string, ⟨4, 7⟩, "\"b\"".toList⟩] ∧
      (classify .literal "a=1;\"b\"".toList).fragments =
        [⟨.plain, ⟨0, 2⟩, "a=".toList⟩, ⟨.literal, ⟨2, 3⟩, "1".toList⟩,
          ⟨.plain, ⟨3, 4⟩, ";".toList⟩, ⟨.literal, ⟨4, 7⟩, "\"b\"".toList⟩] ∧
      (classify .stringOnly "a=1;\"b\"".toList).fragments =
        [⟨.plain, ⟨0, 4⟩, "a=1;".toList⟩, ⟨.string, ⟨4, 7⟩, "\"b\"".toList⟩] := by
  have hsplit : (classify .split "a=1;\"b\"".toList).fragments =
      [⟨.plain, ⟨0, 2⟩, "a=".toList⟩, ⟨.number, ⟨2, 3⟩, "1".toList⟩,
        ⟨.plain, ⟨3, 4⟩, ";".toList⟩, ⟨.string, ⟨4, 7⟩, "\"b\"".toList⟩] := by
    decide +kernel
  have hnone : ∀ fragment ∈ (classify .split "a=1;\"b\"".toList).fragments,
      fragment.category ≠ .attributeSpec := by
    rw [hsplit]
    decide
  obtain ⟨hliteral, -, hstrings⟩ := schemes_show_alike "a=1;\"b\"".toList
  refine ⟨hnone, hsplit, ?_, ?_⟩
  · rw [hliteral, hsplit]
    rfl
  · rw [(hstrings hnone).1, hsplit]
    rfl

end CodeTint
