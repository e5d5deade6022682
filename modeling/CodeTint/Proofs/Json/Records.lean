import CodeTint.Proofs.Framing
import CodeTint.Proofs.SettingsRoundTrip

/-!
# Records are read back

A record is an object whose values are numbers and strings. Its entries are read one after another,
under any keys and with any blanks between the tokens, and nothing may stand behind the closing
brace. A number goes on as long as something stands there that it could go on with, so it is read
back in front of a comma or a brace; a string ends at its own quote.
-/

namespace CodeTint.Json

/-! ### Numbers -/

/-- The text does not start with anything that a number could go on with. -/
def EndsNumber (text : Text) : Prop :=
  ∀ c ∈ text.head?, c.isDigit = false ∧ c ≠ '.' ∧ c ≠ 'e' ∧ c ≠ 'E'

/-- A number has at least one digit. -/
theorem digits_ne_nil (n : Nat) : Text.digits n ≠ [] :=
  Nat.toDigits_ne_nil

/-- A positive number is written without a leading zero. -/
theorem exists_digits_cons {n : Nat} (h : 0 < n) :
    ∃ first others, Text.digits n = first :: others ∧ first ≠ '0' := by
  induction n using Nat.strongRecOn with
  | ind n ih =>
    by_cases hlt : n < 10
    · refine ⟨n.digitChar, [], Nat.toDigits_of_lt_base hlt, ?_⟩
      rw [ne_eq, Nat.digitChar_eq_zero]
      omega
    · obtain ⟨first, others, hdigits, hfirst⟩ := ih (n / 10) (by omega) (by omega)
      refine ⟨first, others ++ [(n % 10).digitChar], ?_, hfirst⟩
      rw [Text.digits, Nat.toDigits_of_base_le (by decide) (by omega), ← List.cons_append,
        ← hdigits, Text.digits]

/-- More digits make a number no smaller. -/
theorem le_ofDigitChars (digits : Text) (value : Nat) :
    value ≤ Nat.ofDigitChars 10 digits value := by
  have hpos : 0 < 10 ^ digits.length := Nat.pow_pos (by decide)
  rw [Nat.ofDigitChars_eq_ofDigitChars_zero]
  exact Nat.le_trans (Nat.le_mul_of_pos_left value hpos) (Nat.le_add_right _ _)

/-- The first digit behind a number is counted on to it. -/
theorem ofDigitChars_cons (c : Char) (digits : Text) (value : Nat) :
    Nat.ofDigitChars 10 (c :: digits) value =
      Nat.ofDigitChars 10 digits (value * 10 + digitValue c) := by
  rw [Nat.ofDigitChars_cons, Nat.mul_comm 10]
  rfl

/-- Digits are kept up to the end of the number when it fits into 64 bits. -/
theorem keepDigits_append {digits rest : Text} (hdigits : ∀ c ∈ digits, c.isDigit = true)
    (hrest : EndsNumber rest) {value : Nat}
    (hfits : Nat.ofDigitChars 10 digits value < UInt64.size) (count : Nat) :
    keepDigits value count (digits ++ rest) =
      ⟨Nat.ofDigitChars 10 digits value, count + digits.length, rest⟩ := by
  induction digits generalizing value count with
  | nil =>
    cases rest with
    | nil => rfl
    | cons c rest =>
      have hc : ¬ (c.isDigit = true ∧ value * 10 + digitValue c < UInt64.size) := by
        rw [(hrest c rfl).1]
        exact fun h => Bool.false_ne_true h.1
      exact if_neg hc
  | cons c digits ih =>
    rw [ofDigitChars_cons] at hfits ⊢
    have hc : c.isDigit = true ∧ value * 10 + digitValue c < UInt64.size :=
      ⟨hdigits c List.mem_cons_self, Nat.lt_of_le_of_lt (le_ofDigitChars digits _) hfits⟩
    rw [List.cons_append, keepDigits, if_pos hc,
      ih (fun d hd => hdigits d (List.mem_cons_of_mem c hd)) hfits, List.length_cons]
    congr 1
    omega

/-- Behind all digits of a number nothing of it is left. -/
theorem readWholeTail_end {rest : Text} (h : EndsNumber rest) (value : Nat) :
    readWholeTail false value 0 rest = .ok (.integer value, rest) := by
  cases rest with
  | nil => rfl
  | cons c rest =>
    obtain ⟨-, hpoint, hlower, hupper⟩ := h c rfl
    have hexponent : (c = 'e' || c = 'E' || 0 < 0) = false := by
      simp only [hlower, hupper, decide_false, Nat.lt_irrefl, Bool.or_self]
    unfold readWholeTail
    split
    · next heq => exact absurd (List.cons.inj heq).1 hpoint
    · next heq =>
      obtain ⟨rfl, rfl⟩ := List.cons.inj heq
      rw [hexponent]
      rfl
    · next heq => cases heq

/-- A zero is read as the number that it is. -/
theorem readMagnitude_zero {rest : Text} (h : EndsNumber rest) :
    readMagnitude false ('0' :: rest) = .ok (.integer 0, rest) := by
  have hnone : rest.head?.any Char.isDigit = false := by
    cases rest with
    | nil => rfl
    | cons c rest => exact (h c rfl).1
  rw [readMagnitude, hnone, readWholeTail_end h]
  rfl

/-- Digits without a leading zero are read as their number. -/
theorem readMagnitude_digits {first : Char} {others rest : Text}
    (hdigits : ∀ c ∈ first :: others, c.isDigit = true) (hfirst : first ≠ '0')
    (hfits : Nat.ofDigitChars 10 (first :: others) 0 < UInt64.size) (hrest : EndsNumber rest) :
    readMagnitude false (first :: (others ++ rest)) =
      .ok (.integer (Nat.ofDigitChars 10 (first :: others) 0), rest) := by
  rw [ofDigitChars_cons, Nat.zero_mul, Nat.zero_add] at hfits ⊢
  have hkept := keepDigits_append (fun c hc => hdigits c (List.mem_cons_of_mem first hc)) hrest
    hfits 1
  have hbehind : rest.takeWhile Char.isDigit = [] ∧ rest.dropWhile Char.isDigit = rest := by
    cases rest with
    | nil => exact ⟨rfl, rfl⟩
    | cons c rest =>
      have hc : ¬ c.isDigit = true := ne_true_of_eq_false (hrest c rfl).1
      exact ⟨List.takeWhile_cons_of_neg hc, List.dropWhile_cons_of_neg hc⟩
  unfold readMagnitude
  split
  · next heq => cases heq
  · next heq => exact absurd (List.cons.inj heq).1 hfirst
  · next heq =>
    obtain ⟨rfl, rfl⟩ := List.cons.inj heq
    rw [hdigits first List.mem_cons_self, hkept]
    dsimp only
    rw [hbehind.1, hbehind.2]
    exact readWholeTail_end hrest _

/-- A number that starts with a digit has no sign. -/
theorem readNumber_of_isDigit {c : Char} (h : c.isDigit = true) (rest : Text) :
    readNumber (c :: rest) = readMagnitude false (c :: rest) := by
  unfold readNumber
  split
  · next heq =>
    rw [(List.cons.inj heq).1] at h
    cases h
  · rfl

/-- A number of at most 64 bits is read back from its digits. -/
theorem readNumber_digits {n : Nat} (hn : n < UInt64.size) {rest : Text} (hrest : EndsNumber rest) :
    readNumber (Text.digits n ++ rest) = .ok (.integer n, rest) := by
  by_cases hzero : n = 0
  · have hdigits : Text.digits 0 = ['0'] := rfl
    rw [hzero, hdigits, List.singleton_append, readNumber_of_isDigit rfl]
    exact readMagnitude_zero hrest
  · obtain ⟨first, others, hdigits, hfirst⟩ := exists_digits_cons (Nat.pos_of_ne_zero hzero)
    have hall : ∀ c ∈ first :: others, c.isDigit = true := fun c hc =>
      Text.isDigit_of_mem_digits (hdigits ▸ hc)
    have hvalue : Nat.ofDigitChars 10 (first :: others) 0 = n :=
      hdigits ▸ Nat.ofDigitChars_ten_toDigits
    have hread := readMagnitude_digits hall hfirst (hvalue ▸ hn) hrest
    rw [hdigits, List.cons_append, readNumber_of_isDigit (hall first List.mem_cons_self), hread,
      hvalue]

/-! ### Records -/

/-- A value without parts. -/
inductive Scalar where
  /-- A whole number that is not negative. -/
  | number (value : Nat)
  /-- A string. -/
  | string (value : Text)
deriving DecidableEq, Repr

namespace Scalar

/-- What a scalar is written as. -/
def write : Scalar → Text
  | number value => Text.digits value
  | string value => writeString value

/-- The number that a scalar is. -/
def number? : Scalar → Option Nat
  | number value => some value
  | string _ => none

/-- The text that a scalar is. -/
def string? : Scalar → Option Text
  | number _ => none
  | string value => some value

/-- A number has at most 64 bits. -/
def Fits : Scalar → Prop
  | number value => value < UInt64.size
  | string _ => True

end Scalar

/-- The text behind a mark that stands in front, any blanks before it. -/
def behindMark? (mark : Char) (text : Text) : Option Text :=
  match skipSpace text with
  | [] => none
  | c :: rest => if c = mark then some rest else none

/-- The scalar in front of a text. -/
def readScalar? (text : Text) : Option (Scalar × Text) :=
  match behindMark? '"' text with
  | some rest => (readString rest).toOption.map fun found => (.string found.1, found.2)
  | none =>
    match readNumber (skipSpace text) with
    | .ok (.integer (.ofNat value), rest) => some (.number value, rest)
    | _ => none

/-- The key and the scalar of the entry in front of a text. -/
def readMember? (text : Text) : Option ((Text × Scalar) × Text) := do
  let rest ← behindMark? '"' text
  let (key, rest) ← (readString rest).toOption
  let rest ← behindMark? ':' rest
  let (value, rest) ← readScalar? rest
  return ((key, value), rest)

/-- The entries are over, and only blanks are left. -/
def closed? (entries : List (Text × Scalar)) (text : Text) : Option (List (Text × Scalar)) := do
  let rest ← behindMark? '\x7d' text
  if (skipSpace rest).isEmpty then return entries else none

/-- The entries up to the end of a record, no more of them than a limit. -/
def readMembers? : Nat → Text → Option (List (Text × Scalar))
  | 0, _ => none
  | limit + 1, text => do
    let (entry, rest) ← readMember? text
    match behindMark? ',' rest with
    | some rest => (readMembers? limit rest).map (entry :: ·)
    | none => closed? [entry] rest

/-- The entries of a text that is a record. Every entry takes text, so there are no more of them
than characters. -/
def readRecord? (text : Text) : Option (List (Text × Scalar)) := do
  let rest ← behindMark? '\x7b' text
  (closed? [] rest).or (readMembers? text.length rest)

/-- A mark is found where nothing stands before it. -/
theorem behindMark?_cons (mark : Char) (h : isSpace mark = false) (rest : Text) :
    behindMark? mark (mark :: rest) = some rest := by
  rw [behindMark?, skipSpace_cons h]
  exact if_pos rfl

/-- A mark is not found where another character stands. -/
theorem behindMark?_of_ne {mark c : Char} (hc : isSpace c = false) (hne : c ≠ mark) (rest : Text) :
    behindMark? mark (c :: rest) = none := by
  rw [behindMark?, skipSpace_cons hc]
  exact if_neg hne

/-- A digit is no blank and no quote. -/
theorem mark_of_isDigit {c : Char} (h : c.isDigit = true) : isSpace c = false ∧ c ≠ '"' := by
  have hne : ∀ d : Char, d.isDigit = false → c ≠ d := by
    rintro d hd rfl
    rw [h] at hd
    cases hd
  refine ⟨?_, hne '"' rfl⟩
  simp [isSpace, hne ' ' rfl, hne '\t' rfl, hne '\n' rfl, hne '\r' rfl]

/-- A written scalar is read back. -/
theorem readScalar?_write {value : Scalar} (h : value.Fits) {rest : Text}
    (hrest : EndsNumber rest) :
    readScalar? (value.write ++ rest) = some (value, rest) := by
  cases value with
  | number n =>
    have hnumber := readNumber_digits h hrest
    obtain ⟨first, others, hdigits⟩ := List.exists_cons_of_ne_nil (digits_ne_nil n)
    have hfirst := mark_of_isDigit
      (Text.isDigit_of_mem_digits (n := n) (hdigits ▸ List.mem_cons_self))
    rw [hdigits, List.cons_append] at hnumber
    rw [readScalar?, Scalar.write, hdigits, List.cons_append, behindMark?_of_ne hfirst.1 hfirst.2,
      skipSpace_cons hfirst.1, hnumber]
  | string text =>
    rw [readScalar?, Scalar.write, writeString_append, behindMark?_cons '"' rfl]
    dsimp only
    rw [readString_flatMap]
    rfl

/-- A written entry is read back. -/
theorem readMember?_write (key : String) {value : Scalar} (h : value.Fits) {rest : Text}
    (hrest : EndsNumber rest) :
    readMember? (writeEntry (key, value.write) ++ rest) = some ((key.toList, value), rest) := by
  rw [readMember?, writeEntry_append, behindMark?_cons '"' rfl]
  simp only [readString_flatMap, Except.toOption, behindMark?_cons ':' rfl,
    readScalar?_write h hrest, Option.bind_eq_bind, Option.bind_some]
  rfl

/-- No number goes on with a comma or a closing brace. -/
theorem endsNumber_cons {c : Char} (hc : c = ',' ∨ c = '\x7d') (rest : Text) :
    EndsNumber (c :: rest) := by
  intro d hd
  rw [← Option.mem_some_iff.mp hd]
  rcases hc with rfl | rfl <;> exact ⟨rfl, by decide, by decide, by decide⟩

/-- Behind the closing brace the entries are complete. -/
theorem closed?_brace (entries : List (Text × Scalar)) : closed? entries ['\x7d'] = some entries :=
  rfl

/-- Written entries, each but the first behind a comma, are read back up to the closing brace. -/
theorem readMembers?_write {first : String × Scalar} {others : List (String × Scalar)}
    (h : ∀ entry ∈ first :: others, entry.2.Fits) {limit : Nat} (hlimit : others.length < limit) :
    readMembers? limit (writeEntry (first.1, first.2.write) ++
        (others.flatMap (fun entry => ',' :: writeEntry (entry.1, entry.2.write)) ++ ['\x7d'])) =
      some ((first :: others).map fun entry => (entry.1.toList, entry.2)) := by
  induction others generalizing first limit with
  | nil =>
    obtain ⟨limit, rfl⟩ := Nat.exists_eq_add_of_lt hlimit
    rw [List.flatMap_nil, List.nil_append, readMembers?,
      readMember?_write _ (h first List.mem_cons_self) (endsNumber_cons (Or.inr rfl) [])]
    exact closed?_brace _
  | cons second others ih =>
    obtain ⟨limit, rfl⟩ := Nat.exists_eq_add_of_lt hlimit
    have hless : others.length < (second :: others).length + limit := by
      rw [List.length_cons]
      omega
    have hothers := ih (fun entry hentry => h entry (List.mem_cons_of_mem first hentry)) hless
    rw [List.flatMap_cons, List.cons_append, List.cons_append, readMembers?,
      readMember?_write _ (h first List.mem_cons_self) (endsNumber_cons (Or.inl rfl) _)]
    simp only [Option.bind_eq_bind, Option.bind_some, behindMark?_cons ',' rfl, List.append_assoc,
      hothers]
    rfl

/-- Pieces behind a comma each are at most as many as the characters of them all. -/
theorem length_le_flatMap {α : Type} (write : α → Text) (items : List α) :
    items.length ≤ (items.flatMap fun item => ',' :: write item).length := by
  induction items with
  | nil => exact Nat.le_refl 0
  | cons item items ih =>
    rw [List.flatMap_cons, List.length_append, List.length_cons, List.length_cons]
    omega

/-- A written record is read back. -/
theorem readRecord?_writeObject {entries : List (String × Scalar)}
    (h : ∀ entry ∈ entries, entry.2.Fits) :
    readRecord? (writeObject (entries.map fun entry => (entry.1, entry.2.write))) =
      some (entries.map fun entry => (entry.1.toList, entry.2)) := by
  cases entries with
  | nil => rfl
  | cons first others =>
    have hopen (rest : Text) : closed? [] (writeEntry (first.1, first.2.write) ++ rest) = none := by
      rw [closed?, writeEntry_append, behindMark?_of_ne rfl (by decide)]
      rfl
    rw [List.map_cons, writeObject_cons, List.flatMap_map, readRecord?, behindMark?_cons _ rfl]
    simp only [Option.bind_eq_bind, Option.bind_some, hopen, Option.none_or]
    refine readMembers?_write h ?_
    have hlength := length_le_flatMap (fun entry : String × Scalar =>
      writeEntry (entry.1, entry.2.write)) others
    simp only [List.length_cons, List.length_append]
    omega

end CodeTint.Json
