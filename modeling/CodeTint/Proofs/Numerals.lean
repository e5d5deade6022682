import CodeTint.Proofs.Backtracking
import CodeTint.Proofs.Clipping.Number

/-!
# Numeric literals are matched in full

A literal is described by the pattern `(?:0[xX][0-9a-fA-F']+|0[bB][01']+|0[0-7']*|D)[uUlLfF]*`, in
which `D` is `[1-9][0-9']*(?:\.[0-9']*)?(?:[eE][+-]?[0-9]+)?`. Its alternatives are tried in this
order and each part takes what it can. Nothing longer is missed that way: the alternatives for a
zero differ in the character behind it, a part that stops early leaves a character with which
nothing else in the literal can go on, and suffix letters that were hexadecimal digits are counted
once either way.
-/

namespace CodeTint.Scan.Number

open Pattern RegularExpression
open Text (runLength bytes)

/-- The characters between two others, in the order of their numbers. -/
def charRange (low high : Char) : List Char :=
  (List.range' low.toNat (high.toNat + 1 - low.toNat)).map Char.ofNat

/-- Hexadecimal digits and the separator. -/
def hexadecimalDigits : List Char :=
  charRange '0' '9' ++ charRange 'a' 'f' ++ charRange 'A' 'F' ++ ['\x27']

/-- Binary digits and the separator. -/
def binaryDigits : List Char :=
  ['0', '1', '\x27']

/-- Octal digits and the separator. -/
def octalDigits : List Char :=
  charRange '0' '7' ++ ['\x27']

/-- Decimal digits and the separator. -/
def decimalDigits : List Char :=
  charRange '0' '9' ++ ['\x27']

/-- Literals with a radix mark. -/
def radix (marks digits : List Char) : RegularExpression Char :=
  oneOf ['0'] * (oneOf marks * many digits)

/-- Literals that start with a zero and go on with octal digits. -/
def octal : RegularExpression Char :=
  oneOf ['0'] * star (oneOf octalDigits)

/-- The digits of a decimal literal in front of its point. -/
def whole : RegularExpression Char :=
  oneOf (charRange '1' '9') * star (oneOf decimalDigits)

/-- A point and the digits behind it. -/
def fraction : RegularExpression Char :=
  oneOf ['.'] * star (oneOf decimalDigits)

/-- An exponent mark, a sign where there is one, and at least one digit. -/
def exponent : RegularExpression Char :=
  oneOf ['e', 'E'] * ((oneOf ['+', '-'] + 1) * many (charRange '0' '9'))

/-- Decimal literals with their optional parts. -/
def decimal : RegularExpression Char :=
  whole * (fraction + 1) * (exponent + 1)

/-- Literals of every form with their suffix letters. -/
def numeral : RegularExpression Char :=
  (radix ['x', 'X'] hexadecimalDigits + (radix ['b', 'B'] binaryDigits + (octal + decimal))) *
    star (oneOf ['u', 'U', 'l', 'L', 'f', 'F'])

/-- A range holds the characters between its ends. -/
theorem mem_charRange {low high : Char} (hhigh : high.toNat < 128) (c : Char) :
    c ∈ charRange low high ↔ low ≤ c ∧ c ≤ high := by
  have hle (a b : Char) : a ≤ b ↔ a.toNat ≤ b.toNat := UInt32.le_iff_toNat_le
  rw [hle, hle, charRange, List.mem_map]
  constructor
  · rintro ⟨n, hn, rfl⟩
    have hbounds := List.mem_range'_1.mp hn
    have hvalid : n.isValidChar := Or.inl (by omega)
    have hcode : (Char.ofNat n).toNat = n := by
      rw [Char.ofNat, dif_pos hvalid]
      rfl
    omega
  · rintro ⟨hlow, hhigh⟩
    exact ⟨c.toNat, List.mem_range'_1.mpr (by omega), Char.ofNat_toNat c⟩

/-- A range as a class of characters. -/
theorem contains_charRange {low high : Char} (hhigh : high.toNat < 128) (c : Char) :
    (charRange low high).contains c = (decide (low ≤ c) && decide (c ≤ high)) := by
  rw [Bool.eq_iff_iff, List.contains_iff_mem, mem_charRange hhigh, Bool.and_eq_true,
    decide_eq_true_iff, decide_eq_true_iff]

/-- The decimal digits are a range. -/
theorem isDigit_eq (c : Char) : c.isDigit = (decide ('0' ≤ c) && decide (c ≤ '9')) :=
  rfl

/-- The decimal digits are those of the scanner. -/
theorem contains_digits : (charRange '0' '9').contains = Char.isDigit := by
  funext c
  rw [contains_charRange (by decide), isDigit_eq]

/-- The hexadecimal digits are those of the scanner. -/
theorem contains_hexadecimalDigits : hexadecimalDigits.contains = isHexadecimal := by
  funext c
  rw [Bool.eq_iff_iff, List.contains_iff_mem]
  simp (disch := decide) only [hexadecimalDigits, isHexadecimal, isDigit_eq, mem_charRange,
    List.mem_append, List.mem_singleton, Bool.or_eq_true, Bool.and_eq_true, decide_eq_true_eq]

/-- The binary digits are those of the scanner. -/
theorem contains_binaryDigits : binaryDigits.contains = isBinary := by
  funext c
  rw [Bool.eq_iff_iff, List.contains_iff_mem]
  simp only [binaryDigits, isBinary, List.mem_cons, List.not_mem_nil, or_false, or_assoc,
    Bool.or_eq_true, decide_eq_true_eq]

/-- The octal digits are those of the scanner. -/
theorem contains_octalDigits : octalDigits.contains = isOctal := by
  funext c
  rw [Bool.eq_iff_iff, List.contains_iff_mem]
  simp (disch := decide) only [octalDigits, isOctal, mem_charRange, List.mem_append,
    List.mem_singleton, Bool.or_eq_true, Bool.and_eq_true, decide_eq_true_eq]

/-- The digits of a decimal literal are those of the scanner. -/
theorem contains_decimalDigits : decimalDigits.contains = isDecimal := by
  funext c
  rw [Bool.eq_iff_iff, List.contains_iff_mem]
  simp (disch := decide) only [decimalDigits, isDecimal, isDigit_eq, mem_charRange,
    List.mem_append, List.mem_singleton, Bool.or_eq_true, Bool.and_eq_true, decide_eq_true_eq]

/-- A literal with a radix mark is read part by part. -/
theorem inTurn_radix (marks : List Char) (isDigit : Char → Bool) :
    inTurn (one ['0'].contains) (inTurn (one marks.contains) (runOf isDigit)) =
      radix? marks isDigit := by
  have hzero : ['0'].contains '0' = true := rfl
  funext text
  unfold radix?
  split
  · next mark behind =>
    rw [inTurn_one_cons, inTurn_one_cons, if_pos hzero, runOf]
    cases marks.contains mark <;> by_cases hdigits : 0 < runLength isDigit behind <;> simp [hdigits]
  · next hother =>
    rcases text with _ | ⟨zero, _ | ⟨mark, behind⟩⟩
    · rfl
    · rw [inTurn_one_cons]
      split <;> rfl
    · have hne : zero ≠ '0' := fun h => hother mark behind (by rw [h])
      rw [inTurn_one_cons, if_neg (by simpa using hne)]

/-- The radix forms take the longest literal with their mark. -/
theorem longest_radix (marks digits : List Char) :
    Longest (radix marks digits) (radix? marks digits.contains) := by
  rw [← inTurn_radix]
  exact (((greedy_many digits).oneOf_mul marks).oneOf_mul ['0']).toLongest

/-- A literal that starts with a zero is read part by part. -/
theorem inTurn_octal : inTurn (one ['0'].contains) (run isOctal) = octal? := by
  have hzero : ['0'].contains '0' = true := rfl
  funext text
  unfold octal?
  split
  · rw [inTurn_one_cons, if_pos hzero]
    rfl
  · next hother =>
    cases text with
    | nil => rfl
    | cons zero behind =>
      have hne : zero ≠ '0' := fun h => hother behind (by rw [h])
      rw [inTurn_one_cons, if_neg (by simpa using hne)]

/-- The octal form takes the longest literal that starts with a zero. -/
theorem longest_octal : Longest octal octal? := by
  rw [← inTurn_octal, ← contains_octalDigits]
  exact ((greedy_star octalDigits).oneOf_mul ['0']).toLongest

/-- A fraction is its point and the digits behind it. -/
theorem orEmpty_fraction :
    orEmpty (inTurn (one ['.'].contains) (run isDecimal)) = some ∘ fractionLength := by
  funext text
  cases text with
  | nil => rfl
  | cons c rest =>
    rw [orEmpty, inTurn_one_cons, Function.comp_apply, fractionLength_cons]
    simp only [List.contains_cons, List.contains_nil, Bool.or_false, beq_iff_eq]
    split <;> rfl

/-- The fraction is left out in front of its point and stops in front of a digit. -/
theorem greedy_fraction :
    Greedy (fraction + 1) (some ∘ fractionLength) fun c => c ∈ '.' :: decimalDigits := by
  rw [← orEmpty_fraction, ← contains_decimalDigits]
  exact (greedy_star decimalDigits).oneOf_or_one ['.'] (fun c => List.mem_cons_of_mem '.')
    fun c hc => List.mem_cons.mpr (Or.inl (List.mem_singleton.mp hc))

/-- The sign is one character or left out. -/
theorem orEmpty_sign : orEmpty (one ['+', '-'].contains) = some ∘ signLength := by
  funext text
  cases text with
  | nil => rfl
  | cons c rest =>
    rw [orEmpty, one, Function.comp_apply, signLength]
    simp only [List.contains_cons, List.contains_nil, Bool.or_false, Bool.or_eq_true, beq_iff_eq,
      decide_eq_true_eq]
    split <;> rfl

/-- An exponent is its mark, a sign where there is one, and digits. -/
theorem orEmpty_exponent :
    orEmpty (inTurn (one ['e', 'E'].contains)
      (inTurn (orEmpty (one ['+', '-'].contains)) (runOf Char.isDigit))) =
        some ∘ exponentLength := by
  funext text
  cases text with
  | nil => rfl
  | cons c rest =>
    rw [orEmpty, inTurn_one_cons, orEmpty_sign, inTurn, Function.comp_apply, Option.bind_some,
      runOf, Function.comp_apply, exponentLength_cons]
    simp only [List.contains_cons, List.contains_nil, Bool.or_false, Bool.or_eq_true, beq_iff_eq]
    by_cases hmark : c = 'e' ∨ c = 'E' <;>
      by_cases hdigits : 0 < runLength Char.isDigit (rest.drop (signLength rest)) <;>
        simp [hmark, hdigits]

/-- The exponent is left out in front of its mark. -/
theorem greedy_exponent : Greedy (exponent + 1) (some ∘ exponentLength) fun _ => True := by
  have hsign : ∀ c ∈ ['+', '-'], (charRange '0' '9').contains c = false :=
    Text.forall_mem_of_all (by decide)
  -- without its sign the exponent would have to start with that sign
  have hdigits := (greedy_oneOf_or_one ['+', '-']).inTurn (greedy_many (charRange '0' '9'))
    fun {c rest} hc => runOf_cons_of_neg (hsign c hc) rest
  rw [← orEmpty_exponent, ← contains_digits]
  exact hdigits.oneOf_or_one ['e', 'E'] (fun _ _ => trivial) fun _ _ => trivial

/-- A decimal literal is read part by part. -/
theorem inTurn_decimal :
    inTurn (inTurn (inTurn (one (charRange '1' '9').contains) (run isDecimal))
      (some ∘ fractionLength)) (some ∘ exponentLength) = decimal? := by
  funext text
  cases text with
  | nil => rfl
  | cons c rest =>
    rw [inTurn, inTurn, inTurn_one_cons, decimal?_cons, contains_charRange (by decide)]
    by_cases hc : '1' ≤ c ∧ c ≤ '9'
    · rw [if_pos hc, if_pos (by simpa using hc)]
      simp only [run, Option.map_some, Option.bind_some, Function.comp_apply, List.drop_succ_cons,
        decimalLength, Text.andThen, Nat.add_right_comm _ 1]
    · rw [if_neg hc, if_neg (by simpa using hc)]
      rfl

/-- The decimal form takes the longest decimal literal. -/
theorem longest_decimal : Longest decimal decimal? := by
  have hpoint : ∀ c ∈ decimalDigits, c ≠ '.' :=
    Text.forall_mem_of_all (by decide)
  have hmark : ∀ c ∈ '.' :: decimalDigits, ¬ (c = 'e' ∨ c = 'E') :=
    Text.forall_mem_of_all (by decide)
  have hwhole := (greedy_star decimalDigits).oneOf_mul (charRange '1' '9')
  have hfraction := hwhole.inTurn_total greedy_fraction
    (fun {c rest} hc => (fractionLength_cons c rest).trans (if_neg (hpoint c hc)))
    fun c => List.mem_cons_of_mem '.'
  have hexponent := hfraction.inTurn_total greedy_exponent
    (fun {c rest} hc => (exponentLength_cons c rest).trans (if_neg fun h => hmark c hc h.1))
    fun _ _ => trivial
  rw [← inTurn_decimal, ← contains_decimalDigits]
  exact hexponent.toLongest

/-- A literal with a radix mark is the zero, the mark and the digits. -/
theorem exists_mark_of_radix? {marks : List Char} {isDigit : Char → Bool} {text : Text} {size : Nat}
    (h : radix? marks isDigit text = some size) :
    ∃ mark digits, text = '0' :: mark :: digits ∧ mark ∈ marks ∧ 1 < size := by
  unfold radix? at h
  split at h
  · next mark digits =>
    rw [Option.ite_none_right_eq_some, Bool.and_eq_true, List.contains_iff_mem] at h
    obtain ⟨⟨hmark, -⟩, hsize⟩ := h
    have hlt := Option.some.inj hsize
    exact ⟨mark, digits, rfl, hmark, by omega⟩
  · cases h

/-- In front of a radix mark the forms without one take the zero only. -/
theorem alternative_of_mark {mark : Char} (h : mark ∈ ['x', 'X', 'b', 'B']) (digits : Text) :
    alternative octal? decimal? ('0' :: mark :: digits) = some 1 := by
  have hmarks : ∀ mark ∈ ['x', 'X', 'b', 'B'], isOctal mark = false :=
    Text.forall_mem_of_all (by decide)
  rw [alternative, octal?, Text.runLength_cons, hmarks mark h]
  rfl

/-- The forms are tried one after the other. -/
theorem alternative_forms :
    alternative (radix? ['x', 'X'] isHexadecimal)
      (alternative (radix? ['b', 'B'] isBinary) (alternative octal? decimal?)) =
        fun text => forms.findSome? (· text) := by
  funext text
  simp only [alternative, forms, List.findSome?_cons, List.findSome?_nil]
  cases radix? ['x', 'X'] isHexadecimal text <;> cases radix? ['b', 'B'] isBinary text <;>
    cases octal? text <;> cases decimal? text <;> rfl

/-- The forms without a radix mark exclude each other. -/
theorem longest_octal_or_decimal : Longest (octal + decimal) (alternative octal? decimal?) := by
  refine longest_octal.alternative longest_decimal fun {text size n} hsize hn => ?_
  unfold octal? at hsize
  split at hsize
  · rw [decimal?_cons, if_neg (by decide)] at hn
    cases hn
  · cases hsize

/-- The binary form takes more than the zero that the forms behind it take there. -/
theorem longest_binary_or_other :
    Longest (radix ['b', 'B'] binaryDigits + (octal + decimal))
      (alternative (radix? ['b', 'B'] isBinary) (alternative octal? decimal?)) := by
  rw [← contains_binaryDigits]
  refine (longest_radix ['b', 'B'] binaryDigits).alternative longest_octal_or_decimal
    fun {text size n} hsize hn => ?_
  obtain ⟨mark, digits, rfl, hmark, hlt⟩ := exists_mark_of_radix? hsize
  rw [alternative_of_mark (List.mem_append_right ['x', 'X'] hmark), Option.some.injEq] at hn
  omega

/-- Of the forms of a literal the first that answers takes the most. -/
theorem longest_forms :
    Longest (radix ['x', 'X'] hexadecimalDigits + (radix ['b', 'B'] binaryDigits +
      (octal + decimal))) fun text => forms.findSome? (· text) := by
  have hmarks : ∀ mark ∈ ['x', 'X'], ['b', 'B'].contains mark = false :=
    Text.forall_mem_of_all (by decide)
  rw [← alternative_forms, ← contains_hexadecimalDigits]
  refine (longest_radix ['x', 'X'] hexadecimalDigits).alternative longest_binary_or_other
    fun {text size n} hsize hn => ?_
  obtain ⟨mark, digits, rfl, hmark, hlt⟩ := exists_mark_of_radix? hsize
  have hother : radix? ['b', 'B'] isBinary ('0' :: mark :: digits) = none := by
    rw [radix?, hmarks mark hmark]
    rfl
  rw [alternative, hother, Option.none_or,
    alternative_of_mark (List.mem_append_left ['b', 'B'] hmark), Option.some.injEq] at hn
  omega

/-- A literal with its suffix is as long as the pattern allows. -/
theorem longest_numeral : Longest numeral length? := by
  have hreader : inTurn (fun text => forms.findSome? (· text))
      (run ['u', 'U', 'l', 'L', 'f', 'F'].contains) = length? := by
    funext text
    rw [inTurn, length?, Option.map_eq_bind]
    rfl
  rw [← hreader]
  exact longest_forms.inTurn_star _

/-- Every character of a literal is one byte. -/
theorem bytes_of_mem_numeral {word : Text} (h : word ∈ numeral.matches') :
    bytes word = word.length := by
  have hsize : ∀ c ∈ letters numeral, c.utf8Size = 1 :=
    Text.forall_mem_of_all (by decide)
  exact Text.bytes_eq_length fun c hc => hsize c (mem_letters h hc)

/-- A literal starts at a digit. -/
theorem isSome_length?_iff (text : Text) :
    (length? text).isSome ↔ ∃ c rest, text = c :: rest ∧ c.isDigit := by
  cases text with
  | nil =>
    refine iff_of_false Bool.false_ne_true ?_
    rintro ⟨c, rest, hcons, -⟩
    cases hcons
  | cons c rest =>
    have hhead : (∃ d behind, c :: rest = d :: behind ∧ d.isDigit = true) ↔ c.isDigit = true := by
      constructor
      · rintro ⟨d, behind, heq, hdigit⟩
        rwa [(List.cons.inj heq).1]
      · exact fun hdigit => ⟨c, rest, rfl, hdigit⟩
    rw [length?_cons, hhead]
    split
    · next hdigit => exact iff_of_true rfl hdigit
    · next hdigit => exact iff_of_false Bool.false_ne_true hdigit

/-- Backtracking finds the literal that the scanner takes; there is one exactly in front of a digit,
and it is the longest beginning of the text that the pattern matches, counted in bytes. -/
theorem length?_longest (text : Text) :
    length? text = (lengths numeral text).head? ∧
    ((length? text).isSome ↔ ∃ c rest, text = c :: rest ∧ c.isDigit) ∧
    ∀ size, length? text = some size ↔
      IsGreatest {size | ∃ word ∈ numeral.matches', word <+: text ∧ bytes word = size} size := by
  refine ⟨(longest_numeral.first text).symm, isSome_length?_iff text, fun size => ?_⟩
  have hset : {size | ∃ word ∈ numeral.matches', word <+: text ∧ bytes word = size} =
      {size | ∃ word ∈ numeral.matches', word <+: text ∧ word.length = size} := by
    ext size
    constructor
    · rintro ⟨word, hword, hbegin, rfl⟩
      exact ⟨word, hword, hbegin, (bytes_of_mem_numeral hword).symm⟩
    · rintro ⟨word, hword, hbegin, rfl⟩
      exact ⟨word, hword, hbegin, bytes_of_mem_numeral hword⟩
  rw [hset, longest_numeral.eq_some_iff]

example : lengths numeral "0xaf".toList = [4, 4, 3, 1] := by
  decide

end CodeTint.Scan.Number
