import CodeTint.Proofs.Borders

/-!
# What no rule takes

A character that no rule takes is a token of its own. Which characters these are is read off the
character, the one behind it, and what is in front of it: the last character decides about a digit,
and the last line about a `#`. A number stops between a letter and a digit only behind a suffix, so
a digit that no rule takes has a number with a suffix in front of it.
-/

namespace CodeTint

/-- A character that begins no construct, with the text in front of it and the text behind it. -/
structure Text.Ordinary (attributes : Bool) (before : Text) (c : Char) (behind : Text) : Prop where
  /-- The character is no whitespace. -/
  space : isSpace c = false
  /-- It is no letter and no underscore. -/
  letter : c.isAlpha = false ∧ c ≠ '_'
  /-- It is no quote. -/
  quote : c ≠ '"' ∧ c ≠ '\x27'
  /-- In front of a digit there is a letter or an underscore. -/
  digit : c.isDigit = true → ∃ d ∈ before.getLast?, d.isAlpha = true ∨ d = '_'
  /-- The line in front of a `#` does not consist of spaces and tabs. -/
  hash : c = '#' → ∃ d ∈ before.lastLine, d ≠ ' ' ∧ d ≠ '\t'
  /-- A slash is not part of an opener of a comment. -/
  slash : c = '/' → ∀ d ∈ behind.head?, d ≠ '/' ∧ d ≠ '*'
  /-- With attributes a bracket is not part of an opener of an attribute. -/
  bracket : c = '[' → attributes = true → ∀ d ∈ behind.head?, d ≠ '['

namespace Scan

open Text

namespace Number

/-- Where so many characters of the text end with a letter in front of a digit, the letter is a
suffix. -/
def SuffixAt (length : Nat) (text : Text) : Prop :=
  ∀ c ∈ (text.take length).getLast?, ∀ d ∈ (text.drop length).head?,
    isWordStart c = true → d.isDigit = true → isSuffix c = true

/-- Nothing ends with a letter. -/
theorem suffixAt_zero (text : Text) : SuffixAt 0 text := by
  intro c hc
  rw [List.take_zero] at hc
  cases hc

/-- What ends behind more characters ends with the last one of the rest, if that has any. -/
theorem SuffixAt.behind {skipped length : Nat} {text : Text}
    (h : SuffixAt length (text.drop skipped)) (hne : (text.drop skipped).take length ≠ []) :
    SuffixAt (skipped + length) text := by
  intro c hc d hd
  rw [List.take_add, List.getLast?_append_of_ne_nil _ hne] at hc
  rw [← List.drop_drop] at hd
  exact h c hc d hd

/-- Two readers in sequence end with a letter in front of a digit only behind a suffix when each
does. -/
theorem suffixAt_andThen {first last : Text → Nat} (hfirst : ∀ text, SuffixAt (first text) text)
    (hlast : ∀ text, SuffixAt (last text) text) (text : Text) :
    SuffixAt (andThen first last text) text := by
  unfold andThen
  by_cases hne : (text.drop (first text)).take (last (text.drop (first text))) = []
  · intro c hc d hd
    rw [List.take_add, hne, List.append_nil] at hc
    rw [← List.drop_drop] at hd
    have hdrop := List.take_append_drop (last (text.drop (first text))) (text.drop (first text))
    rw [hne, List.nil_append] at hdrop
    rw [hdrop] at hd
    exact hfirst text c hc d hd
  · exact (hlast _).behind hne

/-- A character that is no letter may stand in front. -/
theorem SuffixAt.cons {length : Nat} {c : Char} {rest : Text} (hc : isWordStart c = false)
    (h : SuffixAt length rest) : SuffixAt (length + 1) (c :: rest) := by
  by_cases hne : rest.take length = []
  · intro d hd e _ hletter
    rw [List.take_succ_cons, hne, List.getLast?_singleton, Option.mem_some_iff] at hd
    rw [← hd, hc] at hletter
    cases hletter
  · rw [Nat.add_comm]
    exact SuffixAt.behind h hne

/-- A run of a class with all digits never stops in front of a digit. -/
theorem suffixAt_run_of_digits {p : Char → Bool} (hp : ∀ d : Char, d.isDigit = true → p d = true)
    (text : Text) : SuffixAt (runLength p text) text := by
  intro c _ d hd _ hdigit
  have hstops := of_head?_drop_runLength hd
  rw [hp d hdigit] at hstops
  cases hstops

/-- A run of a class whose letters are suffixes ends with no other letter. -/
theorem suffixAt_run_of_suffixes {p : Char → Bool}
    (hp : ∀ c, p c = true → isWordStart c = true → isSuffix c = true) (text : Text) :
    SuffixAt (runLength p text) text :=
  fun c hc _ _ hletter _ => hp c (of_mem_take_runLength (List.mem_of_getLast? hc)) hletter

/-- A nonempty run behind some characters decides what they end with. -/
theorem suffixAt_run_behind {p : Char → Bool} {skipped : Nat} {text rest : Text}
    (hrest : text.drop skipped = rest) (hpos : 0 < runLength p rest)
    (h : SuffixAt (runLength p rest) rest) : SuffixAt (skipped + runLength p rest) text := by
  subst hrest
  refine h.behind fun hnil => ?_
  have hle := runLength_le p (text.drop skipped)
  have hlength := congrArg List.length hnil
  rw [List.length_take_of_le hle, List.length_nil] at hlength
  omega

/-- Octal digits and separators are no letters. -/
theorem isWordStart_eq_false_of_octal {c : Char} (h : isOctal c = true) :
    isWordStart c = false := by
  rw [Bool.eq_false_iff]
  intro hletter
  have hle := le_toNat_of_isWordStart hletter
  simp only [isOctal, Bool.or_eq_true, Bool.and_eq_true, decide_eq_true_eq] at h
  rcases h with hdigit | rfl
  · have hseven : c.toNat ≤ '7'.toNat := UInt32.le_iff_toNat_le.mp hdigit.2
    have hcode : '7'.toNat = 55 := rfl
    omega
  · exact absurd hle (by decide)

/-- Binary digits and separators are octal ones. -/
theorem isOctal_of_isBinary {c : Char} (h : isBinary c = true) : isOctal c = true := by
  simp only [isBinary, Bool.or_eq_true, decide_eq_true_eq] at h
  rcases h with (rfl | rfl) | rfl
  · rfl
  · rfl
  · rfl

/-- A run of octal digits ends with no letter. -/
theorem suffixAt_run_of_octal {p : Char → Bool} (hp : ∀ c, p c = true → isOctal c = true)
    (text : Text) : SuffixAt (runLength p text) text := by
  refine suffixAt_run_of_suffixes (fun c hc hletter => ?_) text
  rw [isWordStart_eq_false_of_octal (hp c hc)] at hletter
  cases hletter

/-- A decimal digit is among the hexadecimal ones. -/
theorem isHexadecimal_of_isDigit {c : Char} (h : c.isDigit = true) : isHexadecimal c = true := by
  rw [isHexadecimal, h]
  rfl

/-- A digit is among the digits and separators of a decimal literal. -/
theorem isDecimal_of_isDigit {c : Char} (h : c.isDigit = true) : isDecimal c = true := by
  rw [isDecimal, h]
  rfl

/-- A fraction ends with a digit, a separator or its point. -/
theorem suffixAt_fraction (text : Text) : SuffixAt (fractionLength text) text := by
  cases text with
  | nil => exact suffixAt_zero []
  | cons c digits =>
    rw [fractionLength_cons]
    split
    · next hc =>
      have hpoint : isWordStart c = false := by
        rw [hc]
        rfl
      exact (suffixAt_run_of_digits (fun _ => isDecimal_of_isDigit) digits).cons hpoint
    · exact suffixAt_zero _

/-- An exponent ends with a digit. -/
theorem suffixAt_exponent (text : Text) : SuffixAt (exponentLength text) text := by
  cases text with
  | nil => exact suffixAt_zero []
  | cons c rest =>
    rw [exponentLength_cons]
    split
    · next h =>
      have hrun := suffixAt_run_of_digits (fun d hd => hd) (rest.drop (signLength rest))
      have hdrop : (c :: rest).drop (signLength rest + 1) = rest.drop (signLength rest) := rfl
      rw [Nat.add_right_comm]
      exact suffixAt_run_behind hdrop h.2 hrun
    · exact suffixAt_zero _

/-- What stands behind a zero ends with no letter in front of a digit. -/
theorem suffixAt_zeroLength (text : Text) : SuffixAt (zeroLength text) text := by
  cases text with
  | nil => exact suffixAt_zero []
  | cons mark digits =>
    have hdrop : (mark :: digits).drop 1 = digits := rfl
    simp only [zeroLength]
    split
    · next h =>
      rw [Bool.and_eq_true, decide_eq_true_eq] at h
      have hrun := suffixAt_run_of_digits (fun _ => isHexadecimal_of_isDigit) digits
      rw [Nat.add_comm]
      exact suffixAt_run_behind hdrop h.2 hrun
    · split
      · next h =>
        rw [Bool.and_eq_true, decide_eq_true_eq] at h
        have hrun := suffixAt_run_of_octal (fun _ => isOctal_of_isBinary) digits
        rw [Nat.add_comm]
        exact suffixAt_run_behind hdrop h.2 hrun
      · exact suffixAt_run_of_octal (fun _ h => h) _

/-- A number ends with a letter in front of a digit only where the letter is a suffix. -/
theorem suffixAt_number {text : Text} {extent : Extent} (h : scan? text = some extent) :
    SuffixAt extent.length text := by
  cases text with
  | nil => cases h
  | cons first rest =>
    rw [scan?, length?_cons] at h
    split at h
    · next hdigit =>
      cases h
      refine SuffixAt.cons (isWordStart_eq_false_of_isDigit hdigit) ?_
      refine suffixAt_andThen (fun text => ?_) (suffixAt_run_of_suffixes fun c hc _ => hc) rest
      split
      · exact suffixAt_zeroLength text
      · have hwhole := suffixAt_run_of_digits (p := isDecimal) fun _ => isDecimal_of_isDigit
        exact suffixAt_andThen (suffixAt_andThen hwhole suffixAt_fraction) suffixAt_exponent text
    · cases h

end Number

/-- Behind a text the character taken last is its last one. -/
theorem Context.behindLetter_after_start (text : Text) :
    (start.after text).behindLetter = text.getLast?.any isWordStart := by
  have hprevious : (start.advance text).previous = text.getLast?.or none := rfl
  rw [behindLetter, ← advance_eq_after, hprevious, Option.or_none]

namespace Rule

/-- A pair of characters opens a text when they are its first two. -/
theorem pair_prefix_iff {a b c : Char} {rest : Text} :
    [a, b] <+: c :: rest ↔ c = a ∧ b ∈ rest.head? := by
  rw [List.cons_prefix_cons, eq_comm]
  cases rest with
  | nil => simp
  | cons d rest => simp [eq_comm]

/-- An opener of a literal starts with a letter or a quote. -/
theorem letter_or_quote_of_opener {rule : Rule} (hrule : rule ∈ literals) {opener : Text}
    (hopener : opener ∈ rule.openers) {c : Char} {rest : Text} (h : opener <+: c :: rest) :
    isWordStart c = true ∨ c = '"' ∨ c = '\x27' := by
  have hall : ∀ rule ∈ literals, ∀ opener ∈ rule.openers,
      opener.head?.any (fun d => isWordStart d || d = '"' || d = '\x27') = true := by
    decide
  have hclass := hall rule hrule opener hopener
  cases opener with
  | nil => cases hclass
  | cons d opener =>
    rw [List.head?_cons, (List.cons_prefix_cons.mp h).1, Option.any_some, Bool.or_eq_true,
      Bool.or_eq_true, decide_eq_true_eq, decide_eq_true_eq, or_assoc] at hclass
    exact hclass

variable {rule : Rule} {attributes : Bool} {before behind : Text} {c : Char}

/-- Behind some text, a character begins no construct when none of the rules in force that answer
at it is allowed. -/
theorem ordinary_of_not_allowed
    (h : ∀ rule ∈ inForce attributes all, rule.Begins (c :: behind) →
      ¬ rule.Allowed (Context.start.after before)) : Ordinary attributes before c behind where
  space := by
    rw [Bool.eq_false_iff]
    intro hspace
    exact h whitespace (mem_inForce (by decide)) (Or.inr ⟨c, rfl, hspace⟩) trivial
  letter := by
    have hword : ¬ isWordStart c = true := fun hword =>
      h word (mem_inForce (by decide)) (Or.inr ⟨c, rfl, hword⟩) trivial
    rw [isWordStart_iff, not_or, Bool.not_eq_true] at hword
    exact hword
  quote := by
    constructor
    · rintro rfl
      exact h string (mem_inForce (by decide)) (Or.inl ⟨['"'], by decide, behind, rfl⟩) trivial
    · rintro rfl
      exact h character (mem_inForce (by decide))
        (Or.inl ⟨['\x27'], by decide, behind, rfl⟩) trivial
  digit hdigit := by
    have hallowed := h number (mem_inForce (by decide)) (Or.inr ⟨c, rfl, hdigit⟩)
    have hletter : (Context.start.after before).behindLetter = true :=
      Bool.eq_true_of_not_eq_false hallowed
    rw [Context.behindLetter_after_start] at hletter
    cases hlast : before.getLast? with
    | none =>
      rw [hlast] at hletter
      cases hletter
    | some d =>
      rw [hlast, Option.any_some] at hletter
      exact ⟨d, rfl, isWordStart_iff.mp hletter⟩
  hash := by
    rintro rfl
    have hallowed := h directive (mem_inForce (by decide)) (Or.inl ⟨['#'], by decide, behind, rfl⟩)
    have hline : (Context.start.after before).lineBlank = false :=
      Bool.eq_false_of_not_eq_true hallowed
    rw [Context.lineBlank_after_start, List.all_eq_false] at hline
    obtain ⟨d, hd, hblank⟩ := hline
    rw [Bool.not_eq_true, isBlank, Bool.or_eq_false_iff, decide_eq_false_iff_not,
      decide_eq_false_iff_not] at hblank
    exact ⟨d, hd, hblank⟩
  slash := by
    rintro rfl d hd
    constructor
    · rintro rfl
      exact h lineComment (mem_inForce (by decide))
        (Or.inl ⟨['/', '/'], by decide, pair_prefix_iff.mpr ⟨rfl, hd⟩⟩) trivial
    · rintro rfl
      exact h blockComment (mem_inForce (by decide))
        (Or.inl ⟨['/', '*'], by decide, pair_prefix_iff.mpr ⟨rfl, hd⟩⟩) trivial
  bracket := by
    rintro rfl rfl d hd rfl
    exact h attributeSpec (by decide)
      (Or.inl ⟨['[', '['], by decide, pair_prefix_iff.mpr ⟨rfl, hd⟩⟩) trivial

/-- A character that begins no construct begins no word. -/
theorem isWordStart_eq_false_of_ordinary (h : Ordinary attributes before c behind) :
    isWordStart c = false := by
  rw [← Bool.not_eq_true, isWordStart_iff, not_or, Bool.not_eq_true]
  exact h.letter

/-- An opener at a character that begins no construct is none of a literal. -/
theorem not_literal_of_ordinary (h : Ordinary attributes before c behind) {opener : Text}
    (hopener : opener ∈ rule.openers) (hbegin : opener <+: c :: behind) : rule ∉ literals := by
  intro hliteral
  rcases letter_or_quote_of_opener hliteral hopener hbegin with hletter | hquote | hquote
  · rw [isWordStart_eq_false_of_ordinary h] at hletter
    cases hletter
  · exact h.quote.1 hquote
  · exact h.quote.2 hquote

/-- A rule in force with an opener at a character that begins no construct is not allowed. -/
theorem not_allowed_of_opener (h : Ordinary attributes before c behind)
    (hrule : rule ∈ inForce attributes all) {opener : Text} (hopener : opener ∈ rule.openers)
    (hbegin : opener <+: c :: behind) : ¬ rule.Allowed (Context.start.after before) := by
  intro hallowed
  have hliteral := not_literal_of_ordinary h hopener hbegin
  cases rule
  case attributeSpec =>
    rw [List.mem_singleton.mp hopener, pair_prefix_iff] at hbegin
    cases attributes
    · exact absurd hrule (by decide)
    · exact h.bracket hbegin.1 rfl '[' hbegin.2 rfl
  case lineComment =>
    rw [List.mem_singleton.mp hopener, pair_prefix_iff] at hbegin
    exact (h.slash hbegin.1 '/' hbegin.2).1 rfl
  case blockComment =>
    rw [List.mem_singleton.mp hopener, pair_prefix_iff] at hbegin
    exact (h.slash hbegin.1 '*' hbegin.2).2 rfl
  case directive =>
    rw [List.mem_singleton.mp hopener, List.cons_prefix_cons] at hbegin
    obtain ⟨d, hd, hspace, htab⟩ := h.hash hbegin.1.symm
    have hline : (Context.start.after before).lineBlank = true := hallowed
    rw [Context.lineBlank_after_start, List.all_eq_true] at hline
    have hblank := hline d hd
    rw [isBlank, decide_eq_false hspace, decide_eq_false htab] at hblank
    cases hblank
  case rawString => exact hliteral (by decide)
  case string => exact hliteral (by decide)
  case character => exact hliteral (by decide)
  all_goals cases hopener

/-- A rule whose class holds a character that begins no construct is not allowed. -/
theorem not_allowed_of_starts (h : Ordinary attributes before c behind)
    (hstarts : rule.starts c = true) : ¬ rule.Allowed (Context.start.after before) := by
  intro hallowed
  cases rule
  case whitespace =>
    have hspace : isSpace c = true := hstarts
    rw [h.space] at hspace
    cases hspace
  case number =>
    obtain ⟨d, hd, hletter⟩ := h.digit hstarts
    have hbehind : (Context.start.after before).behindLetter = false := hallowed
    rw [Context.behindLetter_after_start, Option.mem_def.mp hd, Option.any_some,
      isWordStart_iff.mpr hletter] at hbehind
    cases hbehind
  case word =>
    have hword : isWordStart c = true := hstarts
    rw [isWordStart_eq_false_of_ordinary h] at hword
    cases hword
  all_goals cases hstarts

/-- A character begins no construct exactly when no rule in force that answers at it is allowed. -/
theorem ordinary_iff_not_allowed : Ordinary attributes before c behind ↔
    ∀ rule ∈ inForce attributes all, rule.Begins (c :: behind) →
      ¬ rule.Allowed (Context.start.after before) := by
  refine ⟨fun h rule hrule hbegins => ?_, ordinary_of_not_allowed⟩
  rcases hbegins with ⟨opener, hopener, hbegin⟩ | ⟨d, hd, hstarts⟩
  · exact not_allowed_of_opener h hrule hopener hbegin
  · obtain rfl : c = d := Option.some.inj hd
    exact not_allowed_of_starts h hstarts

end Rule

end Scan

namespace Token

open Scan Text

/-- A number ends with a letter in front of a digit only where the letter is a suffix. -/
theorem suffix_of_number {table : List Rule} {context : Context} {start : Nat} {text : Text}
    {token : Token} (htoken : token = next table context start text) (hkind : token.kind = .number)
    {c d : Char} (hc : c ∈ token.text.getLast?) (hd : d ∈ (text.drop token.text.length).head?)
    (hletter : isWordStart c = true) (hdigit : d.isDigit = true) :
    Number.isSuffix c = true := by
  rw [htoken] at hkind hc hd
  obtain ⟨extent, hextent, hfits, heq⟩ :=
    exists_reach_of_kind .number (congrArg Rule.ofKind? hkind)
  rw [heq] at hc hd
  dsimp only at hc hd
  rw [List.length_take_of_le hfits.within] at hd
  rw [Rule.reach?] at hextent
  split at hextent
  · cases hextent
  · exact Number.suffixAt_number hextent c hc d hd hletter hdigit

/-- Between a letter and a digit a token starts only behind a number with a suffix. -/
theorem exists_number_of_border {table : List Rule} {context : Context} {start : Nat} {whole : Text}
    {front behind : List Token} {token : Token} (hword : Rule.word ∈ table)
    (h : scan table context start whole = front ++ token :: behind) {c d : Char}
    (hc : c ∈ (front.flatMap text).getLast?) (hd : d ∈ (token.text ++ behind.flatMap text).head?)
    (hletter : isWordStart c = true) (hdigit : d.isDigit = true) :
    ∃ previous ∈ front.getLast?, previous.kind = .number ∧ c ∈ previous.text.getLast? ∧
      Number.isSuffix c = true := by
  obtain ⟨init, previous, rfl, hlast, hprevious, hnumber | ⟨-, -, hlone⟩⟩ :=
    exists_previous_of_border hword h hc hd (isWordPart_of_isWordStart hletter)
      (isWordPart_of_isDigit hdigit)
  · have hnext : d ∈ ((previous.text ++ (token.text ++ behind.flatMap Token.text)).drop
        previous.text.length).head? := by
      rw [List.drop_left]
      exact hd
    have hsuffix := suffix_of_number hprevious hnumber hlast hnext hletter hdigit
    exact ⟨previous, List.getLast?_concat, hnumber, hlast, hsuffix⟩
  · rw [isWordStart_eq_false_of_isDigit hlone] at hletter
    cases hletter

/-- A token is a single character exactly where a character begins no construct. Such a token is
nothing but the character, and a digit among them has a number with a suffix in front of it. -/
theorem other_iff_ordinary (attributes : Bool) (text : Text) (front : List Token) (token : Token)
    (behind : List Token) (c : Char) (rest : Text)
    (h : lex attributes text = front ++ token :: behind)
    (htext : text = front.flatMap Token.text ++ c :: rest) :
    (token.kind = .other ↔ Ordinary attributes (front.flatMap Token.text) c rest) ∧
      (token.kind = .other → token.text = [c] ∧
        (c.isDigit = true → ∃ previous ∈ front.getLast?, previous.kind = .number ∧
          ∃ d ∈ previous.text.getLast?, d ∈ ['u', 'U', 'l', 'L', 'f', 'F'])) := by
  have hrest : token.text ++ behind.flatMap Token.text = c :: rest := by
    have hwhole := flatMap_text_lex attributes text
    rw [h, List.flatMap_append, List.flatMap_cons, htext] at hwhole
    exact List.append_cancel_left hwhole
  have hsplit : scan (Rule.inForce attributes Rule.all) .start 0 text =
      front ++ token :: behind := h
  obtain ⟨htoken, -⟩ := eq_next_of_split hsplit
  rw [hrest] at htoken
  have hiff : token.kind = .other ↔ Ordinary attributes (front.flatMap Token.text) c rest := by
    rw [htoken, kind_next_eq_other_iff]
    exact Rule.ordinary_iff_not_allowed.symm
  refine ⟨hiff, fun hother => ⟨?_, fun hdigit => ?_⟩⟩
  · rw [htoken] at hother ⊢
    rw [next_of_none _ (firstMatch?_eq_none_of_other hother)]
    rfl
  · obtain ⟨d, hd, hletter⟩ := (hiff.mp hother).digit hdigit
    have hc : c ∈ (token.text ++ behind.flatMap Token.text).head? := by
      rw [hrest]
      rfl
    obtain ⟨previous, hprevious, hnumber, hlast, hsuffix⟩ :=
      exists_number_of_border (Rule.mem_inForce (by decide)) hsplit hd hc
        (isWordStart_iff.mpr hletter) hdigit
    rw [Number.isSuffix, List.contains_iff_mem] at hsuffix
    exact ⟨previous, hprevious, hnumber, d, hlast, hsuffix⟩

/-- A digit behind a suffix begins no construct, and the number with the suffix is in front of
it. -/
theorem other_iff_ordinary_suffix :
    let word : Token := ⟨some .word, .identifier, 0, ['x'], true⟩
    let hash : Token := ⟨none, .other, 1, ['#'], true⟩
    let number : Token := ⟨some .number, .number, 2, ['1', 'u'], true⟩
    let digit : Token := ⟨none, .other, 4, ['2'], true⟩
    lex true "x#1u2/".toList =
        [word, hash, number] ++ digit :: [⟨none, .other, 5, ['/'], true⟩] ∧
      Ordinary true ['x', '#', '1', 'u'] '2' ['/'] ∧
      ∃ previous ∈ [word, hash, number].getLast?, previous.kind = .number ∧
        ∃ d ∈ previous.text.getLast?, d ∈ ['u', 'U', 'l', 'L', 'f', 'F'] := by
  intro word hash number digit
  have hlex : lex true "x#1u2/".toList =
      [word, hash, number] ++ digit :: [⟨none, .other, 5, ['/'], true⟩] := by
    decide +kernel
  obtain ⟨hiff, hother⟩ := other_iff_ordinary true _ [word, hash, number] digit _ '2' ['/'] hlex rfl
  exact ⟨hlex, hiff.mp rfl, (hother rfl).2 rfl⟩

end Token

end CodeTint
