import CodeTint.Diagnostic
import CodeTint.Proofs.Recognition
import CodeTint.Proofs.Run

/-!
# What the order of the rules decides

The rules are tried in a fixed order, but at most one of them answers anywhere, words apart. A word
rule that comes behind the rules for literals never takes the letters in front of a quote, and in
every order that leaves it there a text has the same tokens. In every other order it does take them.
-/

namespace CodeTint

namespace Scan

open Rule

variable {table : List Rule} {context : Context} {text : Text}

/-- What a rule recognizes begins as its constructs do. -/
theorem Rule.begins_of_scan? {rule : Rule} {found : Match}
    (h : rule.scan? context text = some found) : rule.Begins text := by
  rw [Rule.scan?_eq, Option.map_eq_some_iff] at h
  obtain ⟨extent, hextent, -⟩ := h
  exact (Rule.begins_of_reach? hextent).2

/-- No rule for literals stands behind the rule for words. -/
def Ordered (table : List Rule) : Prop :=
  table.Pairwise fun first last => first = .word → last ∉ literals

/-- In a table that ends with the words after the literals, the first answer is the only one but for
a word, which waits until the literals have declined. -/
theorem firstMatch?_eq_some_iff_of_ordered (horder : Ordered table)
    (hliterals : ∀ literal ∈ literals, literal ∈ table) {rule : Rule} {found : Match} :
    firstMatch? table context text = some (rule, found) ↔
      rule ∈ table ∧ rule.scan? context text = some found ∧
        (rule = .word → ∀ literal ∈ literals, literal.scan? context text = none) := by
  constructor
  · intro h
    obtain ⟨before, behind, rfl, hfound, hbefore⟩ := firstMatch?_eq_some_iff.mp h
    have hbehind := (List.pairwise_cons.mp (List.pairwise_append.mp horder).2.1).1
    refine ⟨List.mem_append_right before List.mem_cons_self, hfound, ?_⟩
    rintro rfl literal hliteral
    rcases List.mem_append.mp (hliterals literal hliteral) with hmem | hmem
    · exact hbefore literal hmem
    · rcases List.mem_cons.mp hmem with rfl | hmem
      · exact absurd hliteral (by decide)
      · exact absurd hliteral (hbehind literal hmem rfl)
  · rintro ⟨hmem, hfound, hword⟩
    obtain ⟨before, behind, rfl, hfresh⟩ := List.eq_append_cons_of_mem hmem
    refine firstMatch?_eq_some_iff.mpr ⟨before, behind, rfl, hfound, fun other hother => ?_⟩
    cases hanswer : other.scan? context text with
    | none => rfl
    | some answer =>
      rcases (begins_of_scan? hanswer).eq_or_word (begins_of_scan? hfound) with
        rfl | ⟨hfirst, hliteral⟩ | ⟨hlast, hliteral⟩
      · exact absurd hother hfresh
      · have hapart := (List.pairwise_append.mp horder).2.2 other hother rule List.mem_cons_self
        exact absurd hliteral (hapart hfirst)
      · rw [hword hlast other hliteral] at hanswer
        cases hanswer

/-- Two tables with the same rules, words behind literals in both, give the same first answers. -/
theorem firstMatch?_eq_of_ordered {other : List Rule} (horder : Ordered table)
    (hother : Ordered other) (hliterals : ∀ literal ∈ literals, literal ∈ table)
    (hmem : ∀ rule, rule ∈ table ↔ rule ∈ other) (context : Context) (text : Text) :
    firstMatch? table context text = firstMatch? other context text := by
  have hothers : ∀ literal ∈ literals, literal ∈ other := fun literal h =>
    (hmem literal).mp (hliterals literal h)
  refine Option.ext fun ⟨rule, found⟩ => ?_
  rw [firstMatch?_eq_some_iff_of_ordered horder hliterals,
    firstMatch?_eq_some_iff_of_ordered hother hothers, hmem]

/-- Where a word is looked for before a literal, it takes the letters of the literal. -/
theorem rule_of_firstMatch?_word (context : Context) {before : List Rule} (behind : List Rule)
    {literal : Rule} (hword : Rule.word ∉ before) (hliteral : literal ∉ before)
    (hmem : literal ∈ literals) (hbegins : literal.Begins text) (hstarts : Rule.word.Begins text) :
    ∃ found, firstMatch? (before ++ .word :: behind) context text = some (.word, found) := by
  have hanswer : (Rule.word.reach? context text).isSome :=
    (Rule.isSome_reach?_iff .word context text).mpr ⟨trivial, hstarts⟩
  obtain ⟨extent, hextent⟩ := Option.isSome_iff_exists.mp hanswer
  have hfound : Rule.word.scan? context text =
      some ⟨Rule.word.kindOf (text.take extent.length), extent⟩ := by
    rw [Rule.scan?_eq, hextent, Option.map_some]
  refine ⟨_, firstMatch?_eq_some_iff.mpr ⟨before, behind, rfl, hfound, fun other hother => ?_⟩⟩
  cases hscan : other.scan? context text with
  | none => rfl
  | some answer =>
    rcases (begins_of_scan? hscan).eq_or_word hbegins with rfl | ⟨rfl, -⟩ | ⟨rfl, -⟩
    · exact absurd hother hliteral
    · exact absurd hother hword
    · exact absurd hmem (by decide)

/-- Every order of all rules holds each of them once. -/
theorem nodup_of_perm {rules : List Rule} (hperm : rules.Perm all) : rules.Nodup :=
  hperm.nodup_iff.mpr (by decide)

/-- In an order of all rules the words come behind the literals when each of the literals has a
smaller place. -/
theorem ordered_of_idxOf {rules : List Rule} (hperm : rules.Perm all)
    (horder : ∀ literal ∈ literals, rules.idxOf literal < rules.idxOf .word) : Ordered rules := by
  have hnodup := nodup_of_perm hperm
  refine List.pairwise_iff_getElem.mpr fun i j hi hj hij hword hliteral => ?_
  have hlt := horder _ hliteral
  rw [← hword, hnodup.idxOf_getElem, hnodup.idxOf_getElem] at hlt
  omega

/-- Leaving rules out keeps the order. -/
theorem Ordered.inForce {rules : List Rule} (h : Ordered rules) (attributes : Bool) :
    Ordered (Rule.inForce attributes rules) :=
  h.filter _

end Scan

namespace Token

open Scan Rule

/-- Tables that give the same first answers give the same tokens. -/
theorem scan_eq_of_firstMatch? {table other : List Rule}
    (h : ∀ context text, firstMatch? table context text = firstMatch? other context text)
    (context : Context) (start : Nat) (text : Text) :
    scan table context start text = scan other context start text := by
  induction context, start, text using scan_induction table with
  | nil context start => rw [scan_nil, scan_nil]
  | cons context start text htext ih =>
    have hnext : next table context start text = next other context start text := by
      rw [next, next, h]
    rw [scan_of_ne_nil table context start htext, scan_of_ne_nil other context start htext, ih,
      hnext]

/-- The fixed order has the words behind the literals. -/
theorem ordered_all : Ordered Rule.all := by
  unfold Ordered
  decide

/-- In every order of the rules that has the words behind the literals the tokens are the same. -/
theorem lexUnder_eq_lex {rules : List Rule} (hperm : rules.Perm Rule.all)
    (horder : ∀ literal ∈ literals, rules.idxOf literal < rules.idxOf .word) (attributes : Bool)
    (text : Text) : lexUnder rules attributes text = lex attributes text := by
  have hrules := (ordered_of_idxOf hperm horder).inForce attributes
  have hall := ordered_all.inForce attributes
  have hmem : ∀ rule, rule ∈ Rule.inForce attributes rules ↔
      rule ∈ Rule.inForce attributes Rule.all := fun rule => (hperm.filter _).mem_iff
  have hliterals : ∀ literal ∈ literals, literal ∈ Rule.inForce attributes rules := by
    intro literal hliteral
    have hne : literal ≠ .attributeSpec := by
      rintro rfl
      exact absurd hliteral (by decide)
    rw [hmem]
    exact mem_inForce hne
  exact scan_eq_of_firstMatch? (firstMatch?_eq_of_ordered hrules hall hliterals hmem) .start 0 text

/-- Every kind of literals has a beginning that is the beginning of a word as well. -/
theorem exists_letter_of_literal {literal : Rule} (h : literal ∈ literals) :
    ∃ text : Text, literal.Begins text ∧ Rule.word.Begins text := by
  have hall : ∀ literal ∈ literals, ∃ opener ∈ literal.openers,
      opener.head?.any Rule.word.starts = true := by
    decide
  obtain ⟨opener, hopener, hletter⟩ := hall literal h
  cases opener with
  | nil => cases hletter
  | cons c opener => exact ⟨_, Or.inl ⟨_, hopener, List.prefix_rfl⟩, Or.inr ⟨c, rfl, hletter⟩⟩

/-- Where a word is looked for before a literal, some text has other tokens. -/
theorem exists_lexUnder_ne {rules : List Rule} (hperm : rules.Perm Rule.all) {literal : Rule}
    (hmem : literal ∈ literals) (hplace : rules.idxOf .word ≤ rules.idxOf literal) :
    ∃ text, lexUnder rules true text ≠ lex true text := by
  have hne : literal ≠ .word := by
    rintro rfl
    exact absurd hmem (by decide)
  obtain ⟨before, behind, rfl, hword⟩ :=
    List.eq_append_cons_of_mem (hperm.mem_iff.mpr (mem_all Rule.word))
  have hliteral : literal ∉ before := by
    intro hbefore
    have hlt := List.idxOf_lt_length_of_mem hbefore
    rw [List.idxOf_append, List.idxOf_append, if_neg hword, if_pos hbefore] at hplace
    omega
  obtain ⟨text, hbegins, hstarts⟩ := exists_letter_of_literal hmem
  have hanswer : (literal.scan? .start text).isSome := by
    have hallowed : literal.Allowed .start := by
      revert hmem
      cases literal <;> simp [literals, Allowed]
    rw [scan?_eq, Option.isSome_map]
    exact (isSome_reach?_iff literal .start text).mpr ⟨hallowed, hbegins⟩
  obtain ⟨answer, hscan⟩ := Option.isSome_iff_exists.mp hanswer
  have hfixed : firstMatch? Rule.all .start text = some (literal, answer) :=
    (firstMatch?_eq_some_iff_of_ordered ordered_all fun rule _ => mem_all rule).mpr
      ⟨mem_all literal, hscan, fun h => absurd h hne⟩
  obtain ⟨found, hfirst⟩ :=
    rule_of_firstMatch?_word .start behind hword hliteral hmem hbegins hstarts
  have htext : text ≠ [] := by
    rintro rfl
    have hfits := scan?_fits hscan
    exact absurd hfits.within (Nat.not_le_of_lt hfits.positive)
  refine ⟨text, fun heq => hne ?_⟩
  rw [lexUnder, lex, lexUnder, inForce_true, inForce_true, scan_of_ne_nil _ _ _ htext,
    scan_of_ne_nil _ _ _ htext, next_of_some 0 hfirst, next_of_some 0 hfixed] at heq
  have hrules := congrArg Token.rule (List.head_eq_of_cons_eq heq)
  exact (Option.some.inj hrules).symm

/-- At any place at most one of the rules answers, words apart. An order of all rules gives every
text its tokens and diagnostics, with and without attributes, just when it tries the rules for
literals before the one for words. -/
theorem precedence_of_words :
    (∀ (context : Context) (text : Text), ∀ first ∈ Rule.all.take 9, ∀ last ∈ Rule.all.take 9,
      (first.scan? context text).isSome → (last.scan? context text).isSome → first = last) ∧
    ∀ rules : List Rule, rules.Perm Rule.all →
      ((∀ literal ∈ [Rule.rawString, .string, .character],
          rules.idxOf literal < rules.idxOf .word) ↔
        ∀ (attributes : Bool) (text : Text),
          lexUnder rules attributes text = lex attributes text ∧
          Diagnostic.ofTokens (lexUnder rules attributes text) =
            Diagnostic.ofTokens (lex attributes text)) := by
  have hwords : Rule.word ∉ Rule.all.take 9 := by decide
  refine ⟨fun context text first hfirst last hlast hanswer hother => ?_,
    fun rules hperm => ⟨fun horder attributes text => ?_, fun hsame literal hliteral => ?_⟩⟩
  · obtain ⟨answer, hanswer⟩ := Option.isSome_iff_exists.mp hanswer
    obtain ⟨other, hother⟩ := Option.isSome_iff_exists.mp hother
    rcases (begins_of_scan? hanswer).eq_or_word (begins_of_scan? hother) with
      heq | ⟨rfl, -⟩ | ⟨rfl, -⟩
    · exact heq
    · exact absurd hfirst hwords
    · exact absurd hlast hwords
  · have htokens := lexUnder_eq_lex hperm horder attributes text
    exact ⟨htokens, congrArg Diagnostic.ofTokens htokens⟩
  · refine Nat.lt_of_not_le fun hplace => ?_
    obtain ⟨text, htext⟩ := exists_lexUnder_ne hperm hliteral hplace
    exact htext (hsame true text).1

/-- With the words at the end of the reverse order, a raw string, a directive and an unclosed
attribute are found as always. -/
theorem precedence_of_words_reversed :
    let rules := [Rule.number, .character, .string, .rawString, .directive, .blockComment,
      .lineComment, .attributeSpec, .whitespace, .word]
    rules.Perm Rule.all ∧ (∀ literal ∈ [Rule.rawString, .string, .character],
      rules.idxOf literal < rules.idxOf .word) ∧
    lexUnder rules true "R\"(a)\"\n#x\n[[b".toList = lex true "R\"(a)\"\n#x\n[[b".toList := by
  intro rules
  have hperm : rules.Perm Rule.all := by decide
  have horder : ∀ literal ∈ [Rule.rawString, .string, .character],
      rules.idxOf literal < rules.idxOf .word := by
    decide
  exact ⟨hperm, horder, ((precedence_of_words.2 rules hperm).mp horder true _).1⟩

end Token

end CodeTint
