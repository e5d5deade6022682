import CodeTint.Proofs.QuotedLiterals
import CodeTint.Proofs.RawLiterals
import CodeTint.Proofs.Recognition

/-!
# What stands on both sides of the end of a construct

A construct that needs a closing delimiter ends with its last character. A construct that is a run
of characters stops in front of the first character that does not belong to it. So letters, digits
and underscores meet in few places only: behind a number, and behind a digit that no rule has taken.
-/

namespace CodeTint

namespace Text

/-- A run and what is left behind it. -/
theorem take_drop_runLength (p : Char → Bool) (text : Text) :
    text.take (runLength p text) = text.takeWhile p ∧
      text.drop (runLength p text) = text.dropWhile p := by
  have hwhole : text.takeWhile p ++ text.dropWhile p = text := List.takeWhile_append_dropWhile
  have htake : (text.takeWhile p ++ text.dropWhile p).take (runLength p text) =
      text.takeWhile p := List.take_left
  have hdrop : (text.takeWhile p ++ text.dropWhile p).drop (runLength p text) =
      text.dropWhile p := List.drop_left
  rw [hwhole] at htake hdrop
  exact ⟨htake, hdrop⟩

/-- A run holds characters of its class only. -/
theorem of_mem_take_runLength {p : Char → Bool} {text : Text} {c : Char}
    (hc : c ∈ text.take (runLength p text)) : p c = true := by
  rw [(take_drop_runLength p text).1] at hc
  exact List.mem_takeWhile_imp hc

/-- A run stops in front of a character of another class. -/
theorem of_head?_drop_runLength {p : Char → Bool} {text : Text} {c : Char}
    (hc : c ∈ (text.drop (runLength p text)).head?) : p c = false := by
  rw [(take_drop_runLength p text).2] at hc
  have hhead := List.head?_dropWhile_not p text
  rw [Option.mem_def] at hc
  rw [hc] at hhead
  exact hhead

/-- So many characters at the front of the text end with this one. -/
def EndsWith (last : Char) (length : Nat) (text : Text) : Prop :=
  ∃ body behind, text = body ++ last :: behind ∧ length = body.length + 1

/-- The character at the end of so many characters. -/
theorem EndsWith.getLast?_take {last : Char} {length : Nat} {text : Text}
    (h : EndsWith last length text) : (text.take length).getLast? = some last := by
  obtain ⟨body, behind, rfl, rfl⟩ := h
  rw [List.take_append, List.take_of_length_le (Nat.le_succ _), Nat.add_sub_cancel_left,
    List.take_succ_cons, List.take_zero, List.getLast?_concat]

/-- More text in front does not change what stands at the end. -/
theorem EndsWith.append {last : Char} {length : Nat} {text : Text} (h : EndsWith last length text)
    (piece : Text) : EndsWith last (piece.length + length) (piece ++ text) := by
  obtain ⟨body, behind, rfl, rfl⟩ := h
  refine ⟨piece ++ body, behind, (List.append_assoc _ _ _).symm, ?_⟩
  rw [List.length_append, Nat.add_assoc]

end Text

namespace Scan

open Text

/-- Whitespace is taken as a run. -/
theorem Space.eq_run_of_scan? {text : Text} {extent : Extent} (h : scan? text = some extent) :
    extent = .ended (runLength isSpace text) := by
  simp only [scan?] at h
  split at h
  · exact (Option.some.inj h).symm
  · cases h

/-- The body of a closed attribute ends with a bracket. -/
theorem Attribute.endsWith_of_closed (outer taken : Nat) (text : Text)
    (h : (bodyFrom outer taken text).closed = true) :
    ∃ length, EndsWith ']' length text ∧ (bodyFrom outer taken text).length = taken + length := by
  fun_induction bodyFrom outer taken text with
  | case1 => cases h
  | case2 outer taken rest ih =>
    obtain ⟨length, hends, hlength⟩ := ih h
    exact ⟨2 + length, hends.append ['[', '['], by omega⟩
  | case3 taken rest => exact ⟨2, ⟨[']'], rest, rfl, rfl⟩, rfl⟩
  | case4 taken rest outer ih =>
    obtain ⟨length, hends, hlength⟩ := ih h
    exact ⟨2 + length, hends.append [']', ']'], by omega⟩
  | case5 outer taken c rest _ _ ih =>
    obtain ⟨length, hends, hlength⟩ := ih h
    exact ⟨1 + length, hends.append [c], by omega⟩

/-- A closed block comment ends with a slash. -/
theorem Comment.endsWith_of_closed {body : Text} (h : (blockReach body).closed = true) :
    EndsWith '/' (blockReach body).length ('/' :: '*' :: body) := by
  cases hindex : indexOf? ['*', '/'] body with
  | none =>
    rw [blockReach, hindex] at h
    cases h
  | some index =>
    obtain ⟨front, back, rfl, rfl, -⟩ := first_of_indexFrom? hindex
    rw [blockReach, hindex]
    have hends : EndsWith '/' (front.length + 2) (front ++ (['*', '/'] ++ back)) :=
      EndsWith.append ⟨['*'], back, rfl, rfl⟩ front
    have hlength : (Extent.ended (0 + front.length + 4)).length = 2 + (front.length + 2) := by
      change 0 + front.length + 4 = _
      omega
    rw [hlength]
    exact hends.append ['/', '*']

/-- A closed raw literal ends with a quote. -/
theorem RawString.endsWith_of_closed {text : Text} {extent : Extent} (h : scan? text = some extent)
    (hclosed : extent.closed = true) : EndsWith '"' extent.length text := by
  obtain ⟨delimiter, payload, back, rfl, -, hlength, -⟩ := exists_literal_of_scan? h hclosed
  refine ⟨'R' :: '"' :: delimiter ++ '(' :: payload ++ (')' :: delimiter), back, ?_, ?_⟩
  · simp [literal, terminator]
  · rw [hlength]
    simp only [literal, terminator, List.length_append, List.length_cons, List.length_nil]
    omega

/-- A closed literal ends with its quote. -/
theorem Quoted.endsWith_of_closed {quote : Char} (hquote : '\\' ≠ quote) {text : Text}
    {extent : Extent} (h : scan? quote text = some extent) (hclosed : extent.closed = true) :
    EndsWith quote extent.length text := by
  rw [scan?, Option.map_eq_some_iff] at h
  obtain ⟨opener, hopener, rfl⟩ := h
  have hwithin := (openerLength?_bound hopener).2
  rcases bodyFrom_reachesFirst hquote opener (text.drop opener) with
    ⟨front, ⟨⟨⟨behind, hbehind⟩, -⟩, -⟩, hextent⟩ | ⟨-, hextent⟩
  · have hends : EndsWith quote (front.length + 1) (text.drop opener) :=
      ⟨front, behind, by rw [← hbehind, List.append_assoc]; rfl, rfl⟩
    have htake : (text.take opener).length = opener := List.length_take_of_le hwithin
    have hwhole := hends.append (text.take opener)
    rw [List.take_append_drop, htake] at hwhole
    rw [hextent]
    exact hwhole
  · rw [hextent] at hclosed
    cases hclosed

namespace Rule

/-- The last character of the delimiter with which the constructs of a rule close. -/
def closer? : Rule → Option Char
  | attributeSpec => some ']'
  | blockComment => some '/'
  | rawString | string => some '"'
  | character => some '\x27'
  | whitespace | lineComment | directive | number | word => none

/-- The characters at which the constructs of a rule may stop. -/
def StopsAt : Rule → Char → Prop
  | whitespace, c => isSpace c = false
  | lineComment, c | directive, c => c = '\n'
  | word, c => isWordPart c = false
  | _, _ => True

variable {rule : Rule} {context : Context} {text : Text} {extent : Extent}

/-- A construct that has found its closing delimiter ends with it. -/
theorem endsWith_closer (h : rule.reach? context text = some extent)
    (hclosed : extent.closed = true) {last : Char} (hlast : last ∈ rule.closer?) :
    EndsWith last extent.length text := by
  cases rule
  case attributeSpec =>
    cases hlast
    obtain ⟨body, rfl⟩ := Attribute.scan?_behind.pair_prefix h
    have hextent : Attribute.bodyFrom 0 2 body = extent := Option.some.inj h
    rw [← hextent] at hclosed ⊢
    obtain ⟨length, hends, hlength⟩ := Attribute.endsWith_of_closed 0 2 body hclosed
    rw [hlength]
    exact hends.append ['[', '[']
  case blockComment =>
    cases hlast
    obtain ⟨body, rfl⟩ := Comment.block?_behind.pair_prefix h
    cases h
    exact Comment.endsWith_of_closed hclosed
  case rawString =>
    cases hlast
    exact RawString.endsWith_of_closed h hclosed
  case string =>
    cases hlast
    exact Quoted.endsWith_of_closed (by decide) h hclosed
  case character =>
    cases hlast
    exact Quoted.endsWith_of_closed (by decide) h hclosed
  all_goals cases hlast

/-- What a rule takes reaches to a character at which its constructs stop, or to the end of the
text. -/
theorem stopsAt_of_reach? (h : rule.reach? context text = some extent) {c : Char}
    (hc : c ∈ (text.drop extent.length).head?) : rule.StopsAt c := by
  cases rule
  case whitespace =>
    rw [Space.eq_run_of_scan? h] at hc
    exact of_head?_drop_runLength hc
  case lineComment =>
    obtain ⟨body, rfl⟩ := Comment.line?_behind.pair_prefix h
    cases h
    have hnewline : decide (c ≠ '\n') = false := of_head?_drop_runLength hc
    have hc : ¬ c ≠ '\n' := of_decide_eq_false hnewline
    exact not_not.mp hc
  case directive =>
    obtain ⟨-, body, rfl, rfl⟩ := Directive.scan?_eq_some_iff.mp h
    obtain ⟨line, behind, rfl, hlength, -, hbehind⟩ := Directive.exists_line '#' 1 body
    have hdrop : ('#' :: (line ++ behind)).drop (1 + line.length) = behind := by
      rw [Nat.add_comm, List.drop_succ_cons, List.drop_left]
    rw [Extent.ended, hlength, hdrop] at hc
    exact (hbehind c hc).1
  case word =>
    cases text with
    | nil => cases h
    | cons d rest =>
      rw [reach?, Word.scan?] at h
      split at h
      · cases h
        have hrest : c ∈ (rest.drop (runLength isWordPart rest)).head? := hc
        exact of_head?_drop_runLength hrest
      · cases h
  all_goals trivial

/-- Two characters of words meet behind a number and behind no other construct. -/
theorem eq_number_of_border (h : rule.reach? context text = some extent)
    (hclosed : extent.closed = true) {c d : Char} (hc : c ∈ (text.take extent.length).getLast?)
    (hd : d ∈ (text.drop extent.length).head?) (hleft : isWordPart c = true)
    (hright : isWordPart d = true) : rule = number := by
  have hcloser : ∀ last ∈ rule.closer?, last = c := by
    intro last hlast
    have hends := (endsWith_closer h hclosed hlast).getLast?_take
    rw [Option.mem_def, hends] at hc
    exact Option.some.inj hc
  have hstops := stopsAt_of_reach? h hd
  cases rule
  case number => rfl
  case whitespace =>
    rw [Space.eq_run_of_scan? h] at hc
    have hspace := of_mem_take_runLength (List.mem_of_getLast? hc)
    rw [isSpace_eq_false_of_isWordPart hleft] at hspace
    cases hspace
  case lineComment =>
    cases (show d = '\n' from hstops)
    cases hright
  case directive =>
    cases (show d = '\n' from hstops)
    cases hright
  case word =>
    rw [show isWordPart d = false from hstops] at hright
    cases hright
  all_goals
    cases hcloser _ rfl
    cases hleft

end Rule

end Scan

namespace Token

open Scan Text

section Step

variable {table : List Rule} {context : Context} {start : Nat} {text : Text}

/-- The text begins as the constructs of the kind of its next token do. -/
theorem begins_of_kind (rule : Rule)
    (h : rule ∈ Rule.ofKind? (next table context start text).kind) : rule.Begins text := by
  obtain ⟨extent, hextent, -, -⟩ := exists_reach_of_kind rule h
  exact (Rule.begins_of_reach? hextent).2

/-- Behind the next token stands a character at which the constructs of its kind stop, if there is
any. -/
theorem stopsAt_of_kind (rule : Rule)
    (h : rule ∈ Rule.ofKind? (next table context start text).kind) {c : Char}
    (hc : c ∈ (text.drop (next table context start text).text.length).head?) :
    rule.StopsAt c := by
  obtain ⟨extent, hextent, hfits, heq⟩ := exists_reach_of_kind rule h
  rw [heq] at hc
  dsimp only at hc
  rw [List.length_take_of_le hfits.within] at hc
  exact Rule.stopsAt_of_reach? hextent hc

/-- The next token is a single ordinary character exactly when none of the rules whose constructs
begin the text is allowed. -/
theorem kind_next_eq_other_iff : (next table context start text).kind = .other ↔
    ∀ rule ∈ table, rule.Begins text → ¬ rule.Allowed context := by
  constructor
  · intro h rule hrule hbegins hallowed
    have hanswer := (Rule.isSome_reach?_iff rule context text).mpr ⟨hallowed, hbegins⟩
    have hnone := firstMatch?_eq_none_iff.mp (firstMatch?_eq_none_of_other h) rule hrule
    rw [Rule.scan?_eq, Option.map_eq_none_iff] at hnone
    rw [hnone] at hanswer
    cases hanswer
  · intro h
    rcases next_cases table context start text with heq | ⟨rule, hrule, extent, hextent, -, -⟩
    · rw [heq]
    · obtain ⟨hallowed, hbegins⟩ := Rule.begins_of_reach? hextent
      exact absurd hallowed (h rule hrule hbegins)

/-- Where two characters of words meet behind a closed token, the token is a number, or a single
digit that no rule has taken. -/
theorem number_or_digit_of_border (hword : Rule.word ∈ table) {token : Token}
    (htoken : token = next table context start text) (hclosed : token.closed = true) {c d : Char}
    (hc : c ∈ token.text.getLast?) (hd : d ∈ (text.drop token.text.length).head?)
    (hleft : isWordPart c = true) (hright : isWordPart d = true) :
    token.kind = .number ∨ (token.kind = .other ∧ token.text = [c] ∧ c.isDigit = true) := by
  rcases next_cases table context start text with heq | ⟨rule, -, extent, hextent, hfits, heq⟩
  · have hother : (next table context start text).kind = .other := congrArg Token.kind heq
    rw [htoken, heq] at hc ⊢
    cases text with
    | nil => cases hc
    | cons e rest =>
      obtain rfl : e = c := Option.some.inj hc
      refine Or.inr ⟨rfl, rfl, isDigit_of_isWordPart hleft ?_⟩
      -- the rule for words would have answered at a letter
      rw [Bool.eq_false_iff]
      intro hletter
      exact kind_next_eq_other_iff.mp hother .word hword (Or.inr ⟨e, rfl, hletter⟩) trivial
  · rw [htoken, heq] at hc hd hclosed ⊢
    dsimp only at hc hd hclosed ⊢
    rw [List.length_take_of_le hfits.within] at hd
    obtain rfl := Rule.eq_number_of_border hextent hclosed hc hd hleft hright
    exact Or.inl rfl

end Step

section Split

variable {table : List Rule} {context : Context} {start : Nat} {whole : Text}
  {front behind : List Token} {token : Token}

/-- A token of a run is the next one of the text that starts with it. -/
theorem eq_next_of_split (h : scan table context start whole = front ++ token :: behind) :
    token = next table (context.after (front.flatMap text)) (start + bytes (front.flatMap text))
      (token.text ++ behind.flatMap text) ∧ token.text ≠ [] := by
  have hleft := scan_of_append h
  rw [List.flatMap_cons] at hleft
  have hne : token.text ++ behind.flatMap text ≠ [] := by
    intro hnil
    rw [hnil, scan_nil] at hleft
    cases hleft
  rw [scan_of_ne_nil _ _ _ hne, List.cons.injEq] at hleft
  refine ⟨hleft.1, ?_⟩
  rw [hleft.1]
  exact (text_next _ _ _ hne).1

/-- A token with text behind it is closed. -/
theorem closed_of_split (h : scan table context start whole = front ++ token :: behind)
    (hbehind : behind.flatMap text ≠ []) : token.closed = true := by
  obtain ⟨htoken, -⟩ := eq_next_of_split h
  cases hclosed : token.closed with
  | true => rfl
  | false =>
    rw [htoken] at hclosed
    have hall := text_next_of_open hclosed
    rw [← htoken, List.self_eq_append_right] at hall
    exact absurd hall hbehind

/-- Where two characters of words meet in front of a token, there is a token that ends with the
first of them: a number, or a single digit that no rule has taken. -/
theorem exists_previous_of_border (hword : Rule.word ∈ table)
    (h : scan table context start whole = front ++ token :: behind) {c d : Char}
    (hc : c ∈ (front.flatMap text).getLast?) (hd : d ∈ (token.text ++ behind.flatMap text).head?)
    (hleft : isWordPart c = true) (hright : isWordPart d = true) :
    ∃ init previous, front = init ++ [previous] ∧ c ∈ previous.text.getLast? ∧
      previous = next table (context.after (init.flatMap text))
        (start + bytes (init.flatMap text))
        (previous.text ++ (token.text ++ behind.flatMap text)) ∧
      (previous.kind = .number ∨
        (previous.kind = .other ∧ previous.text = [c] ∧ c.isDigit = true)) := by
  rcases front.eq_nil_or_concat with rfl | ⟨init, previous, hfront⟩
  · cases hc
  · rw [List.concat_eq_append] at hfront
    subst hfront
    have hsplit : scan table context start whole = init ++ previous :: token :: behind := by
      rw [h, List.append_assoc]
      rfl
    have hbehind : (token :: behind).flatMap text ≠ [] := by
      rw [List.flatMap_cons]
      exact List.append_ne_nil_of_left_ne_nil (eq_next_of_split h).2 _
    obtain ⟨hprevious, hne⟩ := eq_next_of_split hsplit
    have hclosed := closed_of_split hsplit hbehind
    rw [List.flatMap_append, List.flatMap_singleton, List.getLast?_append_of_ne_nil _ hne] at hc
    have hdrop : d ∈ ((previous.text ++ (token :: behind).flatMap text).drop
        previous.text.length).head? := by
      rw [List.drop_left]
      exact hd
    exact ⟨init, previous, rfl, hc, hprevious,
      number_or_digit_of_border hword hprevious hclosed hc hdrop hleft hright⟩

end Split

end Token

end CodeTint
