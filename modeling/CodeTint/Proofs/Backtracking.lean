import CodeTint.Text.Basic
import Mathlib.Computability.RegularExpressions

/-!
# Patterns that are matched by backtracking

A pattern is tried in a fixed order: the first of two alternatives before the second, and one more
repetition before none. The first match in that order need not be the longest one. It is when an
alternative never takes more than those tried before it, and when every shorter match of a part
stops in front of a character with which the rest of the pattern cannot go on.
-/

namespace CodeTint

namespace Text

/-- A run goes on as long as its characters do. -/
theorem runLength_cons (p : Char → Bool) (c : Char) (rest : Text) :
    runLength p (c :: rest) = if p c then runLength p rest + 1 else 0 := by
  rw [runLength, List.takeWhile_cons]
  split <;> rfl

/-- A run that starts later does not end earlier. -/
theorem runLength_le_add_drop (p : Char → Bool) (text : Text) (n : Nat) :
    runLength p text ≤ n + runLength p (text.drop n) := by
  induction n generalizing text with
  | zero => rw [List.drop_zero, Nat.zero_add]
  | succ n ih =>
    cases text with
    | nil => exact Nat.zero_le _
    | cons c rest =>
      have hrest := ih rest
      rw [List.drop_succ_cons, runLength_cons]
      split <;> omega

/-- A text of one-byte characters has as many bytes as characters. -/
theorem bytes_eq_length {text : Text} (h : ∀ c ∈ text, c.utf8Size = 1) :
    bytes text = text.length := by
  induction text with
  | nil => rfl
  | cons c rest ih =>
    have hrest := ih fun d hd => h d (List.mem_cons_of_mem c hd)
    rw [bytes_cons, h c List.mem_cons_self, List.length_cons, hrest, Nat.add_comm]

end Text

namespace Pattern

open RegularExpression
open Text (runLength)

/-- Repetitions of a pattern in the order of backtracking. A repetition takes at least one
character, so there are no more of them than characters. -/
def repeated (once : Text → List Nat) : Nat → Text → List Nat
  | 0, _ => [0]
  | fuel + 1, text =>
    (((once text).filter (0 < ·)).flatMap fun taken =>
      (repeated once fuel (text.drop taken)).map (taken + ·)) ++ [0]

/-- The numbers of characters that a pattern can take from the front of a text, in the order in
which backtracking meets them. -/
def lengths : RegularExpression Char → Text → List Nat
  | 0, _ => []
  | 1, _ => [0]
  | char c, text => if text.head? = some c then [1] else []
  | P + Q, text => lengths P text ++ lengths Q text
  | P * Q, text => (lengths P text).flatMap fun taken =>
      (lengths Q (text.drop taken)).map (taken + ·)
  | .star P, text => repeated (lengths P) text.length text

/-- The matches of the first alternative are met before those of the second. -/
theorem lengths_add (P Q : RegularExpression Char) (text : Text) :
    lengths (P + Q) text = lengths P text ++ lengths Q text := rfl

/-- The matches of a sequence are met in the order of its first part. -/
theorem lengths_mul (P Q : RegularExpression Char) (text : Text) :
    lengths (P * Q) text = (lengths P text).flatMap fun taken =>
      (lengths Q (text.drop taken)).map (taken + ·) := rfl

/-- Words in sequence begin a text when the first begins it and the second begins the rest. -/
theorem append_prefix_iff {first last text : Text} :
    first ++ last <+: text ↔ first <+: text ∧ last <+: text.drop first.length := by
  constructor
  · rintro ⟨behind, rfl⟩
    rw [List.append_assoc, List.drop_left]
    exact ⟨List.prefix_append first _, List.prefix_append last behind⟩
  · rintro ⟨⟨rest, rfl⟩, hlast⟩
    rw [List.drop_left] at hlast
    exact (List.prefix_append_right_inj first).mpr hlast

/-- What the repetitions of a pattern can take are the words in sequence that it matches. -/
theorem mem_repeated_iff {P : RegularExpression Char}
    (hP : ∀ text n, n ∈ lengths P text ↔ ∃ word ∈ P.matches', word <+: text ∧ word.length = n)
    {fuel : Nat} {text : Text} (hfuel : text.length ≤ fuel) (n : Nat) :
    n ∈ repeated (lengths P) fuel text ↔
      ∃ word ∈ P.star.matches', word <+: text ∧ word.length = n := by
  have hnil : [] ∈ P.star.matches' := Language.nil_mem_kstar _
  induction fuel generalizing text n with
  | zero =>
    obtain rfl : text = [] := List.eq_nil_of_length_eq_zero (Nat.le_zero.mp hfuel)
    rw [repeated, List.mem_singleton]
    constructor
    · rintro rfl
      exact ⟨[], hnil, List.nil_prefix, rfl⟩
    · rintro ⟨word, -, hword, rfl⟩
      rw [List.prefix_nil.mp hword, List.length_nil]
  | succ fuel ih =>
    simp only [repeated, List.mem_append, List.mem_flatMap, List.mem_filter, List.mem_map,
      List.mem_singleton, decide_eq_true_eq]
    constructor
    · rintro (⟨taken, ⟨htaken, hpos⟩, more, hmore, rfl⟩ | rfl)
      · obtain ⟨first, hfirst, hbegin, rfl⟩ := (hP text taken).mp htaken
        have hrest : (text.drop first.length).length ≤ fuel := by
          rw [List.length_drop]
          omega
        obtain ⟨last, hlast, hnext, rfl⟩ := (ih hrest more).mp hmore
        obtain ⟨words, rfl, hwords⟩ := Language.mem_kstar.mp hlast
        exact ⟨(first :: words).flatten,
          Language.join_mem_kstar (List.forall_mem_cons.mpr ⟨hfirst, hwords⟩),
          append_prefix_iff.mpr ⟨hbegin, hnext⟩, List.length_append⟩
      · exact ⟨[], hnil, List.nil_prefix, rfl⟩
    · rintro ⟨word, hword, hbegin, rfl⟩
      obtain ⟨words, rfl, hwords⟩ := Language.mem_kstar_iff_exists_nonempty.mp hword
      cases words with
      | nil => exact Or.inr rfl
      | cons first words =>
        rw [List.flatten_cons] at hbegin ⊢
        obtain ⟨hbegin, hnext⟩ := append_prefix_iff.mp hbegin
        obtain ⟨hfirst, hne⟩ := hwords first List.mem_cons_self
        have hpos := List.length_pos_iff.mpr hne
        have hrest : (text.drop first.length).length ≤ fuel := by
          rw [List.length_drop]
          omega
        have hlast : words.flatten ∈ P.star.matches' :=
          Language.join_mem_kstar fun word h => (hwords word (List.mem_cons_of_mem first h)).1
        exact Or.inl ⟨_, ⟨(hP text _).mpr ⟨first, hfirst, hbegin, rfl⟩, hpos⟩, _,
          (ih hrest _).mpr ⟨_, hlast, hnext, rfl⟩, List.length_append.symm⟩

/-- What a pattern can take from the front of a text are the words that it matches. -/
theorem mem_lengths_iff (P : RegularExpression Char) (text : Text) (n : Nat) :
    n ∈ lengths P text ↔ ∃ word ∈ P.matches', word <+: text ∧ word.length = n := by
  induction P generalizing text n with
  | zero => simp [lengths, Language.notMem_zero]
  | epsilon => simp [lengths, Language.mem_one, eq_comm]
  | char c =>
    have hword : [c] <+: text ↔ text.head? = some c := by
      cases text <;> simp [eq_comm]
    have hmem (word : Text) : word ∈ (char c).matches' ↔ word = [c] := Iff.rfl
    simp only [lengths, hmem, exists_eq_left, hword, List.length_singleton]
    split <;> simp_all [eq_comm]
  | plus P Q ihP ihQ =>
    simp only [plus_def, lengths, List.mem_append, ihP, ihQ, matches'_add, Language.mem_add,
      or_and_right, exists_or]
  | comp P Q ihP ihQ =>
    simp only [comp_def, lengths, List.mem_flatMap, List.mem_map, ihP, ihQ, matches'_mul,
      Language.mem_mul]
    constructor
    · rintro ⟨-, ⟨first, hfirst, hbegin, rfl⟩, -, ⟨last, hlast, hnext, rfl⟩, rfl⟩
      exact ⟨first ++ last, ⟨first, hfirst, last, hlast, rfl⟩,
        append_prefix_iff.mpr ⟨hbegin, hnext⟩, List.length_append⟩
    · rintro ⟨-, ⟨first, hfirst, last, hlast, rfl⟩, hbegin, rfl⟩
      obtain ⟨hbegin, hnext⟩ := append_prefix_iff.mp hbegin
      exact ⟨_, ⟨first, hfirst, hbegin, rfl⟩, _, ⟨last, hlast, hnext, rfl⟩, List.length_append.symm⟩
  | star P ih => exact mem_repeated_iff ih (Nat.le_refl _) n

/-- The characters that occur in a pattern. -/
def letters : RegularExpression Char → List Char
  | 0 => []
  | 1 => []
  | char c => [c]
  | P + Q => letters P ++ letters Q
  | P * Q => letters P ++ letters Q
  | .star P => letters P

/-- A word that a pattern matches is made of the characters in the pattern. -/
theorem mem_letters {P : RegularExpression Char} {word : Text} (hword : word ∈ P.matches')
    {c : Char} (hc : c ∈ word) : c ∈ letters P := by
  induction P generalizing word with
  | zero => exact absurd hword (Language.notMem_zero word)
  | epsilon =>
    obtain rfl : word = [] := hword
    exact hc
  | char d =>
    obtain rfl : word = [d] := hword
    exact hc
  | plus P Q ihP ihQ =>
    rcases hword with hword | hword
    · exact List.mem_append_left _ (ihP hword hc)
    · exact List.mem_append_right _ (ihQ hword hc)
  | comp P Q ihP ihQ =>
    obtain ⟨first, hfirst, last, hlast, rfl⟩ := Language.mem_mul.mp hword
    rcases List.mem_append.mp hc with hc | hc
    · exact List.mem_append_left _ (ihP hfirst hc)
    · exact List.mem_append_right _ (ihQ hlast hc)
  | star P ih =>
    obtain ⟨words, rfl, hwords⟩ := Language.mem_kstar.mp hword
    obtain ⟨word, hmem, hc⟩ := List.mem_flatten.mp hc
    exact ih (hwords word hmem) hc

/-- Any one of some characters. -/
def oneOf (chars : List Char) : RegularExpression Char :=
  chars.foldr (fun c P => char c + P) 0

/-- One character of a class. -/
def one (isPart : Char → Bool) : Text → Option Nat
  | c :: _ => if isPart c then some 1 else none
  | [] => none

/-- All characters of a class up to the first other one. -/
def run (isPart : Char → Bool) (text : Text) : Option Nat :=
  some (runLength isPart text)

/-- A reader and another one behind it. -/
def inTurn (first last : Text → Option Nat) (text : Text) : Option Nat :=
  (first text).bind fun taken => (last (text.drop taken)).map (taken + ·)

/-- What a reader takes, or nothing. -/
def orEmpty (reader : Text → Option Nat) (text : Text) : Option Nat :=
  some ((reader text).getD 0)

/-- The one of two readers that answers first. -/
def alternative (first last : Text → Option Nat) (text : Text) : Option Nat :=
  (first text).or (last text)

/-- A pattern takes first what a reader takes, and it can take no more than that. -/
structure Longest (P : RegularExpression Char) (reader : Text → Option Nat) : Prop where
  /-- The first match is what the reader takes. -/
  first : ∀ text, (lengths P text).head? = reader text
  /-- No match takes more. -/
  le : ∀ {text size n}, reader text = some size → n ∈ lengths P text → n ≤ size

/-- A pattern that can take less than the longest match only in front of certain characters. -/
structure Greedy (P : RegularExpression Char) (reader : Text → Option Nat)
    (Stop : Char → Prop) : Prop extends Longest P reader where
  /-- A shorter match stops in front of one of the characters. -/
  stops : ∀ {text size n}, reader text = some size → n ∈ lengths P text → n ≠ size →
    ∃ c ∈ (text.drop n).head?, Stop c

variable {P Q : RegularExpression Char} {first last : Text → Option Nat} {Stop Stop' : Char → Prop}

namespace Longest

/-- Where the reader declines there is no match. -/
theorem lengths_eq_nil (h : Longest P first) {text : Text} (hnone : first text = none) :
    lengths P text = [] :=
  List.head?_eq_none_iff.mp ((h.first text).trans hnone)

/-- Where the reader answers its answer is a match. -/
theorem mem_lengths (h : Longest P first) {text : Text} {size : Nat}
    (hsize : first text = some size) : size ∈ lengths P text :=
  List.mem_of_mem_head? ((h.first text).trans hsize)

/-- Where there is a match the reader answers. -/
theorem exists_size (h : Longest P first) {text : Text} {n : Nat} (hn : n ∈ lengths P text) :
    ∃ size, first text = some size := by
  cases hsize : first text with
  | none =>
    rw [h.lengths_eq_nil hsize] at hn
    exact absurd hn List.not_mem_nil
  | some size => exact ⟨size, rfl⟩

/-- The reader answers with the length of the longest word at the front of the text. -/
theorem eq_some_iff (h : Longest P first) (text : Text) (size : Nat) :
    first text = some size ↔
      IsGreatest {n | ∃ word ∈ P.matches', word <+: text ∧ word.length = n} size := by
  have hset : {n | ∃ word ∈ P.matches', word <+: text ∧ word.length = n} =
      {n | n ∈ lengths P text} := Set.ext fun n => (mem_lengths_iff P text n).symm
  rw [hset]
  constructor
  · intro hsize
    exact ⟨h.mem_lengths hsize, fun n hn => h.le hsize hn⟩
  · rintro ⟨hmem, hupper⟩
    obtain ⟨other, hother⟩ := h.exists_size hmem
    have hle := hupper (h.mem_lengths hother)
    rw [hother, Nat.le_antisymm hle (h.le hother hmem)]

/-- Of two alternatives the first may be taken when it takes at least as much as the second. -/
theorem alternative (hP : Longest P first) (hQ : Longest Q last)
    (hle : ∀ {text size n}, first text = some size → last text = some n → n ≤ size) :
    Longest (P + Q) (Pattern.alternative first last) where
  first text := by
    rw [lengths_add, List.head?_append, hP.first, hQ.first]
    rfl
  le {text size n} hsize hn := by
    rw [lengths_add, List.mem_append] at hn
    cases hfirst : first text with
    | none =>
      rw [Pattern.alternative, hfirst, Option.none_or] at hsize
      rw [hP.lengths_eq_nil hfirst] at hn
      exact hQ.le hsize (hn.resolve_left List.not_mem_nil)
    | some taken =>
      rw [Pattern.alternative, hfirst, Option.some_or, Option.some.injEq] at hsize
      subst hsize
      rcases hn with hn | hn
      · exact hP.le hfirst hn
      · obtain ⟨other, hother⟩ := hQ.exists_size hn
        exact Nat.le_trans (hQ.le hother hn) (hle hfirst hother)

/-- The first match of a sequence is the first that goes on. -/
theorem head?_mul (hQ : Longest Q last) (P : RegularExpression Char) (text : Text) :
    (lengths (P * Q) text).head? =
      (lengths P text).findSome? fun n => (last (text.drop n)).map (n + ·) := by
  rw [lengths_mul, List.head?_flatMap]
  simp only [List.head?_map, hQ.first]

/-- A sequence takes as much as its parts do when every match of the first part that goes on gets
no further than the longest one. -/
theorem inTurn (hP : Longest P first) (hQ : Longest Q last)
    (hgain : ∀ {text taken n k}, first text = some taken → n ∈ lengths P text → n ≠ taken →
      last (text.drop n) = some k →
        ∃ more, last (text.drop taken) = some more ∧ n + k ≤ taken + more) :
    Longest (P * Q) (Pattern.inTurn first last) where
  first text := by
    rw [hQ.head?_mul, Pattern.inTurn]
    cases hfirst : first text with
    | none => rw [hP.lengths_eq_nil hfirst, List.findSome?_nil, Option.bind_none]
    | some taken =>
      obtain ⟨others, hothers⟩ := List.head?_eq_some_iff.mp ((hP.first text).trans hfirst)
      rw [hothers, List.findSome?_cons, Option.bind_some]
      cases hlast : last (text.drop taken) with
      | some more => rfl
      | none =>
        -- then no other match of the first part goes on either
        rw [Option.map_none, List.findSome?_eq_none_iff]
        intro n hn
        rw [Option.map_eq_none_iff]
        by_cases heq : n = taken
        · rw [heq, hlast]
        · rw [Option.eq_none_iff_forall_ne_some]
          intro k hk
          have hmem : n ∈ lengths P text := hothers ▸ List.mem_cons_of_mem taken hn
          obtain ⟨more, hmore, -⟩ := hgain hfirst hmem heq hk
          cases hlast.symm.trans hmore
  le {text size n} hsize hn := by
    simp only [lengths_mul, List.mem_flatMap, List.mem_map] at hn
    obtain ⟨n, hn, k, hk, rfl⟩ := hn
    simp only [Pattern.inTurn, Option.bind_eq_some_iff, Option.map_eq_some_iff] at hsize
    obtain ⟨taken, hfirst, more, hlast, rfl⟩ := hsize
    by_cases heq : n = taken
    · subst heq
      exact Nat.add_le_add_left (hQ.le hlast hk) n
    · obtain ⟨other, hother⟩ := hQ.exists_size hk
      obtain ⟨most, hmost, hle⟩ := hgain hfirst hn heq hother
      obtain rfl : more = most := Option.some.inj (hlast.symm.trans hmost)
      have hother := hQ.le hother hk
      omega

end Longest

namespace Greedy

/-- The characters at which a pattern may stop can be given more generously. -/
theorem mono (h : Greedy P first Stop) (hstop : ∀ c, Stop c → Stop' c) : Greedy P first Stop' where
  toLongest := h.toLongest
  stops hsize hn hne := by
    obtain ⟨c, hc, hstops⟩ := h.stops hsize hn hne
    exact ⟨c, hc, hstop c hstops⟩

/-- A shorter match leaves a rest that starts with one of the characters. -/
theorem exists_cons (h : Greedy P first Stop) {text : Text} {size n : Nat}
    (hsize : first text = some size) (hn : n ∈ lengths P text) (hne : n ≠ size) :
    ∃ c rest, text.drop n = c :: rest ∧ Stop c := by
  obtain ⟨c, hc, hstop⟩ := h.stops hsize hn hne
  obtain ⟨rest, hrest⟩ := List.head?_eq_some_iff.mp hc
  exact ⟨c, rest, hrest, hstop⟩

/-- A sequence stops where its second part does, and where its first part may when the second part
then takes nothing. -/
theorem stops_mul (hP : Greedy P first Stop) (hQ : Greedy Q last Stop')
    (hearly : ∀ {c rest k}, Stop c → k ∈ lengths Q (c :: rest) → k = 0 ∧ Stop' c)
    {text : Text} {size n : Nat} (hsize : Pattern.inTurn first last text = some size)
    (hn : n ∈ lengths (P * Q) text) (hne : n ≠ size) : ∃ c ∈ (text.drop n).head?, Stop' c := by
  simp only [lengths_mul, List.mem_flatMap, List.mem_map] at hn
  obtain ⟨n, hn, k, hk, rfl⟩ := hn
  simp only [Pattern.inTurn, Option.bind_eq_some_iff, Option.map_eq_some_iff] at hsize
  obtain ⟨taken, hfirst, more, hlast, rfl⟩ := hsize
  by_cases heq : n = taken
  · subst heq
    rw [← List.drop_drop]
    exact hQ.stops hlast hk fun h => hne (by rw [h])
  · obtain ⟨c, rest, hrest, hstop⟩ := hP.exists_cons hfirst hn heq
    rw [hrest] at hk
    obtain ⟨rfl, hstop⟩ := hearly hstop hk
    exact ⟨c, by rw [Nat.add_zero, hrest, List.head?_cons]; rfl, hstop⟩

/-- Where the second part cannot start, stopping early leads nowhere. -/
theorem inTurn (hP : Greedy P first Stop) (hQ : Greedy Q last Stop')
    (hnone : ∀ {c rest}, Stop c → last (c :: rest) = none) :
    Greedy (P * Q) (Pattern.inTurn first last) Stop' where
  toLongest := by
    refine hP.toLongest.inTurn hQ.toLongest fun {text taken n k} hfirst hn hne hlast => ?_
    obtain ⟨c, rest, hrest, hstop⟩ := hP.exists_cons hfirst hn hne
    rw [hrest, hnone hstop] at hlast
    cases hlast
  stops hsize hn hne := by
    refine stops_mul hP hQ (fun {c rest k} hstop hk => ?_) hsize hn hne
    rw [hQ.lengths_eq_nil (hnone hstop)] at hk
    exact absurd hk List.not_mem_nil

/-- Where the second part takes nothing, stopping early takes no more. -/
theorem inTurn_total {reach : Text → Nat} (hP : Greedy P first Stop)
    (hQ : Greedy Q (some ∘ reach) Stop') (hzero : ∀ {c rest}, Stop c → reach (c :: rest) = 0)
    (hstop : ∀ c, Stop c → Stop' c) :
    Greedy (P * Q) (Pattern.inTurn first (some ∘ reach)) Stop' := by
  have hnone {c : Char} {rest : Text} (hc : Stop c) : (some ∘ reach) (c :: rest) = some 0 :=
    congrArg some (hzero hc)
  refine ⟨hP.toLongest.inTurn hQ.toLongest fun {text taken n k} hfirst hn hne hlast => ?_,
    stops_mul hP hQ fun {c rest k} hc hk => ⟨Nat.le_zero.mp (hQ.le (hnone hc) hk), hstop c hc⟩⟩
  obtain ⟨c, rest, hrest, hc⟩ := hP.exists_cons hfirst hn hne
  rw [hrest, hnone hc, Option.some.injEq] at hlast
  subst hlast
  exact ⟨_, rfl, Nat.le_trans (hP.le hfirst hn) (Nat.le_add_right taken _)⟩

/-- A pattern may be left out in front of the characters with which it starts. -/
theorem or_one (hP : Greedy P first Stop)
    (hstart : ∀ {text size}, first text = some size → ∃ c ∈ text.head?, Stop c) :
    Greedy (P + 1) (orEmpty first) Stop where
  first text := by
    have hone : (lengths 1 text).head? = some 0 := rfl
    rw [lengths_add, List.head?_append, hP.first, hone, orEmpty]
    cases first text <;> rfl
  le {text size n} hsize hn := by
    rw [orEmpty, Option.some.injEq] at hsize
    subst hsize
    rcases List.mem_append.mp hn with hn | hn
    · obtain ⟨size, hsize⟩ := hP.exists_size hn
      rw [hsize, Option.getD_some]
      exact hP.le hsize hn
    · rw [List.mem_singleton.mp hn]
      exact Nat.zero_le _
  stops {text size n} hsize hn hne := by
    rw [orEmpty, Option.some.injEq] at hsize
    subst hsize
    rcases List.mem_append.mp hn with hn | hn
    · obtain ⟨size, hsize⟩ := hP.exists_size hn
      rw [hsize, Option.getD_some] at hne
      exact hP.stops hsize hn hne
    · obtain rfl : n = 0 := List.mem_singleton.mp hn
      cases hsize : first text with
      | none =>
        rw [hsize] at hne
        exact absurd rfl hne
      | some size => exact hstart hsize

end Greedy

/-- One character of a list is all or nothing. -/
theorem lengths_oneOf (chars : List Char) (text : Text) :
    (lengths (oneOf chars) text).head? = one chars.contains text ∧
      ∀ n ∈ lengths (oneOf chars) text, n = 1 := by
  induction chars with
  | nil => cases text <;> exact ⟨rfl, fun _ hn => absurd hn List.not_mem_nil⟩
  | cons c chars ih =>
    have hcons : lengths (oneOf (c :: chars)) text =
        (if text.head? = some c then [1] else []) ++ lengths (oneOf chars) text := rfl
    rw [hcons, List.head?_append, ih.1]
    constructor
    · cases text with
      | nil => rfl
      | cons d rest =>
        simp only [one, List.head?_cons, Option.some.injEq, List.contains_cons, Bool.or_eq_true,
          beq_iff_eq]
        split <;> simp_all
    · intro n hn
      rcases List.mem_append.mp hn with hn | hn
      · split at hn
        · exact List.mem_singleton.mp hn
        · exact absurd hn List.not_mem_nil
      · exact ih.2 n hn

/-- One character of a list has no shorter match. -/
theorem greedy_oneOf (chars : List Char) :
    Greedy (oneOf chars) (one chars.contains) fun _ => False where
  first text := (lengths_oneOf chars text).1
  le {text size n} hsize hn := by
    have hmem := List.mem_of_mem_head? ((lengths_oneOf chars text).1.trans hsize)
    rw [(lengths_oneOf chars text).2 n hn, (lengths_oneOf chars text).2 size hmem]
  stops {text size n} hsize hn hne := by
    have hmem := List.mem_of_mem_head? ((lengths_oneOf chars text).1.trans hsize)
    rw [(lengths_oneOf chars text).2 n hn, (lengths_oneOf chars text).2 size hmem] at hne
    exact absurd rfl hne

/-- A reader behind one character of a class reads what follows that character. -/
theorem inTurn_one_cons (isPart : Char → Bool) (last : Text → Option Nat) (c : Char)
    (rest : Text) :
    inTurn (one isPart) last (c :: rest) = if isPart c then (last rest).map (· + 1) else none := by
  rw [inTurn, one]
  split
  · rw [Option.bind_some, List.drop_succ_cons, List.drop_zero]
    exact congrFun (congrArg Option.map (funext fun n => Nat.add_comm 1 n)) _
  · rfl

/-- One character of a list may be left out where it stands. -/
theorem greedy_oneOf_or_one (chars : List Char) :
    Greedy (oneOf chars + 1) (orEmpty (one chars.contains)) (· ∈ chars) := by
  refine ((greedy_oneOf chars).mono fun _ => False.elim).or_one fun {text size} hsize => ?_
  cases text with
  | nil => cases hsize
  | cons c rest =>
    rw [one, Option.ite_none_right_eq_some] at hsize
    exact ⟨c, rfl, List.contains_iff_mem.mp hsize.1⟩

/-- A part that starts with one character of a list stops where the rest of it does. -/
theorem Greedy.oneOf_mul (hP : Greedy P first Stop) (chars : List Char) :
    Greedy (oneOf chars * P) (Pattern.inTurn (one chars.contains) first) Stop :=
  (greedy_oneOf chars).inTurn hP False.elim

/-- A part that starts with one character of a list may be left out where that stands. -/
theorem Greedy.oneOf_or_one (hP : Greedy P first Stop) (chars : List Char)
    (hstop : ∀ c, Stop c → Stop' c) (hstart : ∀ c ∈ chars, Stop' c) :
    Greedy (oneOf chars * P + 1) (orEmpty (Pattern.inTurn (one chars.contains) first)) Stop' := by
  refine ((hP.oneOf_mul chars).mono hstop).or_one fun {text size} hsize => ?_
  cases text with
  | nil => cases hsize
  | cons c rest =>
    rw [inTurn_one_cons, Option.ite_none_right_eq_some] at hsize
    exact ⟨c, rfl, hstart c (List.contains_iff_mem.mp hsize.1)⟩

/-- Repeated characters of a list are taken first as far as they go, and any of them may be left. -/
theorem repeated_oneOf (chars : List Char) {fuel : Nat} {text : Text} (hfuel : text.length ≤ fuel) :
    (repeated (lengths (oneOf chars)) fuel text).head? = run chars.contains text ∧
      ∀ n ∈ repeated (lengths (oneOf chars)) fuel text, n = runLength chars.contains text ∨
        n < runLength chars.contains text ∧ ∃ c ∈ (text.drop n).head?, c ∈ chars := by
  -- one more repetition is met before none, so the longest run comes first
  induction fuel generalizing text with
  | zero =>
    obtain rfl : text = [] := List.eq_nil_of_length_eq_zero (Nat.le_zero.mp hfuel)
    exact ⟨rfl, fun n hn => Or.inl (List.mem_singleton.mp hn)⟩
  | succ fuel ih =>
    obtain ⟨hfirst, hones⟩ := lengths_oneOf chars text
    have hfilter : (lengths (oneOf chars) text).filter (0 < ·) = lengths (oneOf chars) text :=
      List.filter_eq_self.mpr fun n hn => by rw [hones n hn]; rfl
    rw [repeated, hfilter]
    cases text with
    | nil =>
      rw [List.head?_eq_none_iff.mp hfirst]
      exact ⟨rfl, fun n hn => Or.inl (List.mem_singleton.mp hn)⟩
    | cons c rest =>
      obtain ⟨hhead, hmore⟩ := ih (Nat.le_of_succ_le_succ hfuel)
      rw [run, Text.runLength_cons]
      by_cases hc : chars.contains c
      · rw [one, if_pos hc] at hfirst
        obtain ⟨others, hothers⟩ := List.head?_eq_some_iff.mp hfirst
        constructor
        · rw [List.head?_append, List.head?_flatMap, hothers, List.findSome?_cons, List.head?_map,
            List.drop_succ_cons, List.drop_zero, hhead, if_pos hc, Nat.add_comm]
          rfl
        · intro n hn
          simp only [List.mem_append, List.mem_flatMap, List.mem_map, List.mem_singleton] at hn
          rw [if_pos hc]
          rcases hn with ⟨n, hn, k, hk, rfl⟩ | rfl
          · rw [hones n hn, List.drop_succ_cons, List.drop_zero] at hk
            rw [hones n hn, Nat.add_comm 1 k, List.drop_succ_cons]
            exact (hmore k hk).imp (congrArg (· + 1)) (And.imp_left Nat.succ_lt_succ)
          · exact Or.inr ⟨Nat.succ_pos _, c, rfl, List.contains_iff_mem.mp hc⟩
      · rw [one, if_neg hc] at hfirst
        rw [List.head?_eq_none_iff.mp hfirst, if_neg hc]
        exact ⟨rfl, fun n hn => Or.inl (List.mem_singleton.mp hn)⟩

/-- Repeated characters of a list stop in front of one more of them, or behind the last. -/
theorem greedy_star (chars : List Char) :
    Greedy (star (oneOf chars)) (run chars.contains) (· ∈ chars) where
  first text := (repeated_oneOf chars (Nat.le_refl _)).1
  le {text size n} hsize hn := by
    obtain rfl : runLength chars.contains text = size := Option.some.inj hsize
    rcases (repeated_oneOf chars (Nat.le_refl _)).2 n hn with rfl | ⟨hlt, -⟩
    · exact Nat.le_refl _
    · exact Nat.le_of_lt hlt
  stops {text size n} hsize hn hne := by
    obtain rfl : runLength chars.contains text = size := Option.some.inj hsize
    rcases (repeated_oneOf chars (Nat.le_refl _)).2 n hn with heq | ⟨-, hstop⟩
    · exact absurd heq hne
    · exact hstop

/-- At least one of some characters. -/
def many (chars : List Char) : RegularExpression Char :=
  oneOf chars * star (oneOf chars)

/-- All characters of a class up to the first other one, of which there must be one. -/
def runOf (isPart : Char → Bool) (text : Text) : Option Nat :=
  if 0 < runLength isPart text then some (runLength isPart text) else none

/-- One character of a class and the others behind it are all of them. -/
theorem inTurn_one_run (isPart : Char → Bool) :
    inTurn (one isPart) (run isPart) = runOf isPart := by
  funext text
  cases text with
  | nil => rfl
  | cons c rest =>
    rw [inTurn_one_cons, run, runOf, Text.runLength_cons]
    split
    · exact (if_pos (Nat.succ_pos _)).symm
    · rfl

/-- A character outside the class is none of them. -/
theorem runOf_cons_of_neg {isPart : Char → Bool} {c : Char} (hc : isPart c = false) (rest : Text) :
    runOf isPart (c :: rest) = none := by
  rw [runOf, Text.runLength_cons, hc]
  rfl

/-- At least one character of a list is taken as far as they go. -/
theorem greedy_many (chars : List Char) :
    Greedy (many chars) (runOf chars.contains) (· ∈ chars) := by
  rw [← inTurn_one_run]
  exact (greedy_star chars).oneOf_mul chars

/-- Repeated characters behind any pattern take no less when they start later. -/
theorem Longest.inTurn_star (hP : Longest P first) (chars : List Char) :
    Longest (P * star (oneOf chars)) (Pattern.inTurn first (run chars.contains)) := by
  refine hP.inTurn (greedy_star chars).toLongest fun {text taken n k} hfirst hn hne hlast => ?_
  obtain rfl : runLength chars.contains (text.drop n) = k := Option.some.inj hlast
  have hle := hP.le hfirst hn
  have hrun := Text.runLength_le_add_drop chars.contains (text.drop n) (taken - n)
  rw [List.drop_drop, Nat.add_sub_cancel' hle] at hrun
  exact ⟨_, rfl, by omega⟩

end Pattern

end CodeTint
