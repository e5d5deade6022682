import CodeTint.Scan.Extent

/-!
# Numeric literals

A literal has one of four forms, tried in order: hexadecimal, binary, a run of octal digits after
a zero, or a decimal with optional fraction and exponent. The first form that matches decides, so
a zero is never followed by a fraction. Any number of suffix letters may follow.
-/

namespace CodeTint.Scan.Number

/-- A decimal digit or the digit separator. -/
def isDecimal (c : Char) : Bool :=
  c.isDigit || c = '\x27'

/-- An octal digit or the digit separator. -/
def isOctal (c : Char) : Bool :=
  ('0' ≤ c && c ≤ '7') || c = '\x27'

/-- A binary digit or the digit separator. -/
def isBinary (c : Char) : Bool :=
  c = '0' || c = '1' || c = '\x27'

/-- A hexadecimal digit or the digit separator. -/
def isHexadecimal (c : Char) : Bool :=
  c.isDigit || ('a' ≤ c && c ≤ 'f') || ('A' ≤ c && c ≤ 'F') || c = '\x27'

/-- A letter that may follow the digits. -/
def isSuffix (c : Char) : Bool :=
  ['u', 'U', 'l', 'L', 'f', 'F'].contains c

/-- Length of a literal with a radix mark: a zero, the mark and at least one digit. -/
def radix? (marks : List Char) (isDigit : Char → Bool) : Text → Option Nat
  | '0' :: mark :: digits =>
    let count := Text.runLength isDigit digits
    if marks.contains mark && 0 < count then some (count + 2) else none
  | _ => none

/-- Length of a literal that starts with a zero and goes on with octal digits. -/
def octal? : Text → Option Nat
  | '0' :: digits => some (Text.runLength isOctal digits + 1)
  | _ => none

/-- Length of the fraction that starts the text, zero without a point. -/
def fractionLength : Text → Nat
  | '.' :: digits => Text.runLength isDecimal digits + 1
  | _ => 0

/-- Length of the sign that starts the text. -/
def signLength : Text → Nat
  | c :: _ => if c = '+' || c = '-' then 1 else 0
  | [] => 0

/-- Length of the exponent that starts the text, zero unless it has a digit. -/
def exponentLength : Text → Nat
  | c :: rest =>
    let sign := signLength rest
    let digits := Text.runLength Char.isDigit (rest.drop sign)
    if (c = 'e' || c = 'E') && 0 < digits then sign + digits + 1 else 0
  | [] => 0

/-- Length of a decimal literal that starts with a nonzero digit. -/
def decimal? : Text → Option Nat
  | c :: rest =>
    if '1' ≤ c && c ≤ '9' then
      let whole := Text.runLength isDecimal rest
      let fraction := fractionLength (rest.drop whole)
      let exponent := exponentLength (rest.drop (whole + fraction))
      some (whole + fraction + exponent + 1)
    else none
  | [] => none

/-- The forms of a literal in the order in which they are tried. -/
def forms : List (Text → Option Nat) :=
  [radix? ['x', 'X'] isHexadecimal, radix? ['b', 'B'] isBinary, octal?, decimal?]

/-- Length of the literal that starts the text. -/
def length? (text : Text) : Option Nat :=
  (forms.findSome? (· text)).map fun core => core + Text.runLength isSuffix (text.drop core)

/-- Reach of the literal that starts the text. -/
def scan? (text : Text) : Option Extent :=
  (length? text).map .ended

/-- A run behind some characters ends inside the text. -/
theorem drop_run_le (p : Char → Bool) (text : Text) (skipped : Nat) (h : skipped ≤ text.length) :
    skipped + Text.runLength p (text.drop skipped) ≤ text.length := by
  have hr := Text.runLength_le p (text.drop skipped)
  simp only [List.length_drop] at hr
  omega

/-- A fraction ends inside the text. -/
theorem fractionLength_le (text : Text) : fractionLength text ≤ text.length := by
  unfold fractionLength
  split
  · next digits =>
    have hr := Text.runLength_le isDecimal digits
    simp only [List.length_cons]
    omega
  · exact Nat.zero_le _

/-- A sign ends inside the text. -/
theorem signLength_le (text : Text) : signLength text ≤ text.length := by
  unfold signLength
  split
  · simp only [List.length_cons]
    split <;> omega
  · exact Nat.zero_le _

/-- An exponent ends inside the text. -/
theorem exponentLength_le (text : Text) : exponentLength text ≤ text.length := by
  unfold exponentLength
  split
  · next c rest =>
    have hr := drop_run_le Char.isDigit rest (signLength rest) (signLength_le rest)
    simp only [List.length_cons]
    split <;> omega
  · exact Nat.zero_le _

/-- A literal with a radix mark is nonempty and ends inside the text. -/
theorem radix?_bound {marks : List Char} {isDigit : Char → Bool} {text : Text} {length : Nat}
    (h : radix? marks isDigit text = some length) : 0 < length ∧ length ≤ text.length := by
  unfold radix? at h
  split at h
  · next mark digits =>
    have hr := Text.runLength_le isDigit digits
    dsimp only at h
    split at h
    · simp only [Option.some.injEq] at h
      simp only [List.length_cons]
      omega
    · exact nomatch h
  · exact nomatch h

/-- A literal with a leading zero is nonempty and ends inside the text. -/
theorem octal?_bound {text : Text} {length : Nat} (h : octal? text = some length) :
    0 < length ∧ length ≤ text.length := by
  unfold octal? at h
  split at h
  · next digits =>
    have hr := Text.runLength_le isOctal digits
    simp only [Option.some.injEq] at h
    simp only [List.length_cons]
    omega
  · exact nomatch h

/-- A decimal literal is nonempty and ends inside the text. -/
theorem decimal?_bound {text : Text} {length : Nat} (h : decimal? text = some length) :
    0 < length ∧ length ≤ text.length := by
  unfold decimal? at h
  split at h
  · next c rest =>
    split at h
    · simp only [Option.some.injEq] at h
      have hw := Text.runLength_le isDecimal rest
      have hf := fractionLength_le (rest.drop (Text.runLength isDecimal rest))
      have he := exponentLength_le (rest.drop (Text.runLength isDecimal rest +
        fractionLength (rest.drop (Text.runLength isDecimal rest))))
      simp only [List.length_drop] at hf he
      simp only [List.length_cons]
      omega
    · exact nomatch h
  · exact nomatch h

/-- A literal is nonempty and ends inside the text. -/
theorem length?_bound {text : Text} {length : Nat} (h : length? text = some length) :
    0 < length ∧ length ≤ text.length := by
  simp only [length?, Option.map_eq_some_iff] at h
  obtain ⟨core, hcore, rfl⟩ := h
  have hb : 0 < core ∧ core ≤ text.length := by
    obtain ⟨form, hform, hlength⟩ := List.exists_of_findSome?_eq_some hcore
    simp only [forms, List.mem_cons, List.not_mem_nil, or_false] at hform
    rcases hform with rfl | rfl | rfl | rfl
    · exact radix?_bound hlength
    · exact radix?_bound hlength
    · exact octal?_bound hlength
    · exact decimal?_bound hlength
  have hs := drop_run_le isSuffix text core hb.2
  omega

/-- A literal fits the text it starts. -/
theorem scan?_fits {text : Text} {extent : Extent} (h : scan? text = some extent) :
    extent.Fits text := by
  simp only [scan?, Option.map_eq_some_iff] at h
  obtain ⟨length, hlength, rfl⟩ := h
  have hb := length?_bound hlength
  exact Extent.fits_ended hb.1 hb.2

end CodeTint.Scan.Number
