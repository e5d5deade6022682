import CodeTint.Proofs.Clipping
import CodeTint.Scan.Number

/-!
# Numbers obey the law of clipping up to a pending rest

Behind its first digit a literal is one reader after another: the digits of its form, a fraction,
an exponent, and the suffix letters. Only two parts look further than they take. A radix mark
counts when a digit follows it, and an exponent counts when a digit follows its sign. A text cut
inside one of them leaves at most two characters behind the literal.
-/

namespace CodeTint.Scan.Number

open Text (Clips StopsAtNewline andThen runLength)

/-- What may be left behind a literal although more text would make it part of the literal: a
radix mark, or an exponent mark with or without its sign. -/
def pendingRests : List Text :=
  [['x'], ['X'], ['b'], ['B'], ['e'], ['E'], ['e', '+'], ['e', '-'], ['E', '+'], ['E', '-']]

/-- More text could make this rest part of the literal in front of it. -/
def Pending (rest : Text) : Prop :=
  rest ∈ pendingRests

instance : DecidablePred Pending :=
  fun rest => inferInstanceAs (Decidable (rest ∈ pendingRests))

/-- The length of a literal that starts with a zero, without the zero and the suffix. -/
def zeroLength : Text → Nat
  | mark :: digits =>
    if ['x', 'X'].contains mark && 0 < runLength isHexadecimal digits then
      runLength isHexadecimal digits + 1
    else if ['b', 'B'].contains mark && 0 < runLength isBinary digits then
      runLength isBinary digits + 1
    else runLength isOctal (mark :: digits)
  | [] => 0

/-- The length of a decimal literal, without the first digit and the suffix. -/
def decimalLength : Text → Nat :=
  andThen (andThen (runLength isDecimal) fractionLength) exponentLength

/-- The length of a literal behind its first digit. -/
def tailLength (first : Char) : Text → Nat :=
  andThen (if first = '0' then zeroLength else decimalLength) (runLength isSuffix)

/-- A digit is the zero or one of the digits that start a decimal literal. -/
theorem isDigit_iff (c : Char) : c.isDigit = true ↔ c = '0' ∨ ('1' ≤ c ∧ c ≤ '9') := by
  have h0 : '0'.val.toNat = 48 := rfl
  have h1 : '1'.val.toNat = 49 := rfl
  have h9 : '9'.val.toNat = 57 := rfl
  simp only [Char.isDigit, Bool.and_eq_true, decide_eq_true_eq, ge_iff_le, Char.le_def,
    Char.ext_iff, UInt32.le_iff_toNat_le, ← UInt32.toNat_inj]
  omega

/-- Behind a zero the radix forms are tried, and the octal form always answers. -/
theorem findSome?_forms_zero (rest : Text) :
    forms.findSome? (· ('0' :: rest)) = some (zeroLength rest + 1) := by
  cases rest with
  | nil => rfl
  | cons mark digits =>
    simp only [forms, List.findSome?_cons, radix?, octal?, zeroLength]
    by_cases hx : (['x', 'X'].contains mark && 0 < runLength isHexadecimal digits) = true
    · simp only [hx, if_true]
    · simp only [hx]
      by_cases hb : (['b', 'B'].contains mark && 0 < runLength isBinary digits) = true
      · simp only [hb, if_true]
        rfl
      · simp only [hb]
        rfl

/-- At any other character only the decimal form can answer. -/
theorem findSome?_forms_of_ne {first : Char} (h : first ≠ '0') (rest : Text) :
    forms.findSome? (· (first :: rest)) = decimal? (first :: rest) := by
  have hradix : ∀ marks isDigit, radix? marks isDigit (first :: rest) = none := by
    intro marks isDigit
    unfold radix?
    split
    · next heq => exact absurd (List.cons.inj heq).1 h
    · rfl
  have hoctal : octal? (first :: rest) = none := by
    unfold octal?
    split
    · next heq => exact absurd (List.cons.inj heq).1 h
    · rfl
  simp only [forms, List.findSome?_cons, hradix, hoctal, List.findSome?_nil]
  cases decimal? (first :: rest) <;> rfl

/-- A decimal literal is its first digit and the parts behind it. -/
theorem decimal?_cons (first : Char) (rest : Text) :
    decimal? (first :: rest) =
      if '1' ≤ first ∧ first ≤ '9' then some (decimalLength rest + 1) else none := by
  simp only [decimal?, decimalLength, andThen, Bool.and_eq_true, decide_eq_true_eq]

/-- A literal starts at every digit and nowhere else, and what follows decides its length. -/
theorem length?_cons (first : Char) (rest : Text) :
    length? (first :: rest) =
      if first.isDigit = true then some (tailLength first rest + 1) else none := by
  have hcore : forms.findSome? (· (first :: rest)) =
      if first.isDigit = true then
        some ((if first = '0' then zeroLength else decimalLength) rest + 1) else none := by
    by_cases hzero : first = '0'
    · subst hzero
      exact findSome?_forms_zero rest
    · rw [findSome?_forms_of_ne hzero, decimal?_cons, if_neg hzero]
      simp only [isDigit_iff, hzero, false_or]
  rw [length?, hcore]
  split
  · rw [Option.map_some, List.drop_succ_cons, Nat.add_right_comm]
    rfl
  · rfl

/-- A number starts with a digit. -/
theorem scan?_of_not_digit {c : Char} (hc : ¬ c.isDigit = true) (rest : Text) :
    scan? (c :: rest) = none := by
  rw [scan?, length?_cons, if_neg hc, Option.map_none]

/-- A pending rest has no fraction, no exponent and no suffix. -/
theorem Pending.lengths {rest : Text} (h : Pending rest) :
    fractionLength rest = 0 ∧ exponentLength rest = 0 ∧ runLength isSuffix rest = 0 := by
  revert rest
  unfold Pending
  decide

/-- A fraction starts at a point. -/
theorem fractionLength_cons (c : Char) (digits : Text) :
    fractionLength (c :: digits) = if c = '.' then runLength isDecimal digits + 1 else 0 := by
  unfold fractionLength
  split
  · next heq =>
    obtain ⟨rfl, rfl⟩ := List.cons.inj heq
    rfl
  · next hne => rw [if_neg fun hc => hne digits (by rw [hc])]

/-- An exponent is a mark, a sign where there is one, and at least one digit. -/
theorem exponentLength_cons (c : Char) (rest : Text) :
    exponentLength (c :: rest) =
      if (c = 'e' ∨ c = 'E') ∧ 0 < runLength Char.isDigit (rest.drop (signLength rest)) then
        signLength rest + runLength Char.isDigit (rest.drop (signLength rest)) + 1
      else 0 := by
  simp only [exponentLength, Bool.and_eq_true, Bool.or_eq_true, decide_eq_true_eq]

/-- The sign of a nonempty text depends on its first character. -/
theorem signLength_append (c : Char) (rest more : Text) :
    signLength (c :: rest ++ more) = signLength (c :: rest) := rfl

/-- Fractions obey the law. -/
theorem clips_fractionLength : Clips Pending fractionLength := by
  intro text more
  left
  cases text with
  | nil => exact (Nat.min_zero _).symm
  | cons c digits =>
    have hr := Text.runLength_clip isDecimal digits more
    rw [List.cons_append, fractionLength_cons, fractionLength_cons, List.length_cons]
    split <;> omega

/-- Whether digits follow is decided by the first character behind the sign. -/
theorem exponentDigits_clip (mark : Prop) [Decidable mark] (sign : Nat) {digits : Text}
    (hdigits : digits ≠ []) (more : Text) :
    (if mark ∧ 0 < runLength Char.isDigit digits then
        sign + runLength Char.isDigit digits + 1 else 0) =
      min (if mark ∧ 0 < runLength Char.isDigit (digits ++ more) then
        sign + runLength Char.isDigit (digits ++ more) + 1 else 0) (digits.length + sign + 1) := by
  have hr := Text.runLength_clip Char.isDigit digits more
  have hlen := List.length_pos_iff.mpr hdigits
  have hpos : 0 < runLength Char.isDigit digits ↔
      0 < runLength Char.isDigit (digits ++ more) := by omega
  simp only [hpos]
  split <;> omega

/-- The exponent of a text cut behind its mark or behind its sign is pending, and any other
exponent is decided by the digit that follows. -/
theorem clips_exponentLength : Clips Pending exponentLength := by
  intro text more
  cases text with
  | nil => exact Or.inl (Nat.min_zero _).symm
  | cons c rest =>
    by_cases hmark : c = 'e' ∨ c = 'E'
    · cases rest with
      | nil =>
        have hp : Pending [c] := by
          rcases hmark with rfl | rfl <;> decide
        rw [hp.lengths.2.1, List.singleton_append, exponentLength_cons]
        split
        · exact Or.inr ⟨by rw [List.length_singleton]; omega, hp⟩
        · exact Or.inl rfl
      | cons sign digits =>
        rw [List.cons_append, exponentLength_cons c (sign :: digits ++ more), signLength_append]
        by_cases hsign : sign = '+' ∨ sign = '-'
        · have hone : signLength (sign :: digits) = 1 := by
            rcases hsign with rfl | rfl <;> rfl
          rw [hone, List.cons_append, List.drop_succ_cons, List.drop_zero]
          cases digits with
          | nil =>
            have hp : Pending [c, sign] := by
              rcases hmark with rfl | rfl <;> rcases hsign with rfl | rfl <;> decide
            rw [hp.lengths.2.1]
            split
            · exact Or.inr ⟨by simp only [List.length_cons, List.length_nil]; omega, hp⟩
            · exact Or.inl rfl
          | cons digit digits =>
            left
            rw [exponentLength_cons, hone, List.drop_succ_cons, List.drop_zero,
              exponentDigits_clip _ 1 (List.cons_ne_nil digit digits) more]
            rfl
        · have hzero : signLength (sign :: digits) = 0 := by
            rw [not_or] at hsign
            simp [signLength, hsign.1, hsign.2]
          left
          rw [exponentLength_cons, hzero, List.drop_zero, List.drop_zero,
            exponentDigits_clip _ 0 (List.cons_ne_nil sign digits) more]
          rfl
    · left
      rw [List.cons_append, exponentLength_cons, exponentLength_cons,
        if_neg fun h => hmark h.1, if_neg fun h => hmark h.1, Nat.zero_min]

/-- A radix mark alone is pending. -/
theorem zeroLength_mark {mark : Char} (h : mark ∈ ['x', 'X', 'b', 'B']) :
    zeroLength [mark] = 0 ∧ Pending [mark] := by
  simp only [List.mem_cons, List.not_mem_nil, or_false] at h
  rcases h with rfl | rfl | rfl | rfl <;> decide

/-- What stands behind a zero is a run of octal digits or a radix mark with a digit behind it. -/
theorem zeroLength_cons (mark : Char) (digits : Text) :
    zeroLength (mark :: digits) = runLength isOctal (mark :: digits) ∨
      (mark ∈ ['x', 'X', 'b', 'B'] ∧ 1 < zeroLength (mark :: digits)) := by
  simp only [zeroLength]
  split
  · next hx =>
    simp only [Bool.and_eq_true, List.contains_iff_mem, decide_eq_true_eq] at hx
    exact Or.inr ⟨List.mem_append_left ['b', 'B'] hx.1, Nat.succ_lt_succ hx.2⟩
  · split
    · next hb =>
      simp only [Bool.and_eq_true, List.contains_iff_mem, decide_eq_true_eq] at hb
      exact Or.inr ⟨List.mem_append_right ['x', 'X'] hb.1, Nat.succ_lt_succ hb.2⟩
    · exact Or.inl rfl

/-- A radix mark at the end of the text is pending, and any other literal behind a zero is decided
by the character that follows. -/
theorem clips_zeroLength : Clips Pending zeroLength := by
  intro text more
  rcases text with _ | ⟨mark, _ | ⟨digit, digits⟩⟩
  · exact Or.inl (Nat.min_zero _).symm
  · have hoct := Text.runLength_clip isOctal [mark] more
    rw [List.singleton_append] at hoct ⊢
    rcases zeroLength_cons mark more with hrun | ⟨hmark, hlt⟩
    · left
      rw [hrun, ← hoct]
      simp [zeroLength, runLength]
    · have hp := zeroLength_mark hmark
      right
      rw [hp.1]
      exact ⟨hlt, hp.2⟩
  · have hhex := Text.runLength_clip isHexadecimal (digit :: digits) more
    have hbin := Text.runLength_clip isBinary (digit :: digits) more
    have hoct := Text.runLength_clip isOctal (mark :: digit :: digits) more
    have hlen : 0 < (digit :: digits).length := Nat.succ_pos _
    have hhexpos : 0 < runLength isHexadecimal (digit :: digits) ↔
        0 < runLength isHexadecimal (digit :: digits ++ more) := by omega
    have hbinpos : 0 < runLength isBinary (digit :: digits) ↔
        0 < runLength isBinary (digit :: digits ++ more) := by omega
    left
    rw [List.cons_append] at hoct ⊢
    simp only [zeroLength, List.length_cons (a := mark), hhexpos, hbinpos]
    split
    · omega
    · split
      · omega
      · exact hoct

/-- What follows the first digit of a literal obeys the law up to a pending rest. -/
theorem clips_tailLength (first : Char) : Clips Pending (tailLength first) := by
  refine Clips.andThen ?_ (Text.clips_runLength _ _) fun rest h => h.lengths.2.2
  split
  · exact clips_zeroLength
  · refine Clips.andThen ?_ clips_exponentLength fun rest h => h.lengths.2.1
    exact Clips.andThen (Text.clips_runLength _ _) clips_fractionLength
      fun rest h => h.lengths.1

/-- Fractions stop at a newline. -/
theorem stopsAtNewline_fractionLength : StopsAtNewline fractionLength := by
  intro text more
  cases text with
  | nil => exact Nat.le_refl 0
  | cons c digits =>
    have hr := Text.runLength_append_le isDecimal digits more (c := '\n') rfl
    rw [List.cons_append, fractionLength_cons, List.length_cons]
    split <;> omega

/-- Exponents stop at a newline. -/
theorem stopsAtNewline_exponentLength : StopsAtNewline exponentLength := by
  intro text more
  cases text with
  | nil => exact Nat.le_refl 0
  | cons c rest =>
    have hs : signLength (rest ++ '\n' :: more) ≤ rest.length := by
      cases rest with
      | nil => exact Nat.le_refl 0
      | cons sign digits => exact signLength_le (sign :: digits)
    have hr := Text.runLength_append_le Char.isDigit
      (rest.drop (signLength (rest ++ '\n' :: more))) more (c := '\n') rfl
    rw [List.length_drop] at hr
    rw [List.cons_append, exponentLength_cons, List.drop_append_of_le_length hs, List.length_cons]
    split <;> omega

/-- Literals behind a zero stop at a newline. -/
theorem stopsAtNewline_zeroLength : StopsAtNewline zeroLength := by
  intro text more
  cases text with
  | nil => exact Nat.le_refl 0
  | cons mark digits =>
    have hhex := Text.runLength_append_le isHexadecimal digits more (c := '\n') rfl
    have hbin := Text.runLength_append_le isBinary digits more (c := '\n') rfl
    have hoct := Text.runLength_append_le isOctal (mark :: digits) more (c := '\n') rfl
    rw [List.cons_append] at hoct ⊢
    simp only [zeroLength, List.length_cons] at hoct ⊢
    split
    · omega
    · split <;> omega

/-- What follows the first digit of a literal stops at a newline. -/
theorem stopsAtNewline_tailLength (first : Char) : StopsAtNewline (tailLength first) := by
  refine StopsAtNewline.andThen ?_ (Text.stopsAtNewline_runLength rfl)
  split
  · exact stopsAtNewline_zeroLength
  · refine StopsAtNewline.andThen ?_ stopsAtNewline_exponentLength
    exact StopsAtNewline.andThen (Text.stopsAtNewline_runLength rfl) stopsAtNewline_fractionLength

/-- Numbers obey the law; a text is too short when it is empty or when it leaves a pending rest. -/
theorem clipLaw :
    ClipLaw true (fun text => text = [] ∨
      ∃ length, length? text = some length ∧ Pending (text.drop length)) Number.scan? where
  declines {text more} h := by
    cases text with
    | nil => rfl
    | cons first rest =>
      simp only [List.cons_append, scan?, length?_cons] at h ⊢
      split at h
      · cases h
      · next hdigit => rw [if_neg hdigit, Option.map_none]
  clips {text more extent} h := by
    cases text with
    | nil => exact Or.inr ⟨(scan?_fits h).positive, Or.inl rfl⟩
    | cons first rest =>
      simp only [List.cons_append, scan?, length?_cons] at h
      split at h
      · next hdigit =>
        cases h
        have hlength : length? (first :: rest) = some (tailLength first rest + 1) := by
          rw [length?_cons, if_pos hdigit]
        rcases clips_tailLength first rest more with ht | ⟨hlt, hp⟩
        · left
          rw [scan?, hlength, Option.map_some, Extent.clip_ended, List.length_cons,
            Nat.add_min_add_right, ← ht]
        · right
          exact ⟨Nat.succ_lt_succ hlt, Or.inr ⟨_, hlength, hp⟩⟩
      · cases h

/-- A literal that starts in front of a newline stops there. -/
theorem length_le_of_newline {text more : Text} {extent : Extent} (htext : text ≠ [])
    (h : Number.scan? (text ++ '\n' :: more) = some extent) : extent.length ≤ text.length := by
  cases text with
  | nil => exact absurd rfl htext
  | cons first rest =>
    simp only [List.cons_append, scan?, length?_cons] at h
    split at h
    · cases h
      exact Nat.succ_le_succ (stopsAtNewline_tailLength first rest more)
    · cases h

end CodeTint.Scan.Number
