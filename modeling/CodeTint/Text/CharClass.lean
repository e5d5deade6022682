/-!
# Character classes of the scanner

Whitespace is the Unicode property of that name together with the byte-order mark. Words are
made of ASCII letters, digits and the underscore only, whatever else the text holds.
-/

namespace CodeTint.Text

/-- Code points with the Unicode property White_Space, and the byte-order mark. -/
def isSpace (c : Char) : Bool :=
  let n := c.toNat
  (9 ≤ n && n ≤ 13) || n = 0x20 || n = 0x85 || n = 0xA0 || n = 0x1680 ||
    (0x2000 ≤ n && n ≤ 0x200A) || n = 0x2028 || n = 0x2029 || n = 0x202F || n = 0x205F ||
    n = 0x3000 || n = 0xFEFF

/-- Horizontal blank that may stand before a directive on its line. -/
def isBlank (c : Char) : Bool :=
  c = ' ' || c = '\t'

/-- First character of a word: an ASCII letter or the underscore. -/
def isWordStart (c : Char) : Bool :=
  c.isAlpha || c = '_'

/-- Later character of a word: an ASCII letter, an ASCII digit or the underscore. -/
def isWordPart (c : Char) : Bool :=
  c.isAlphanum || c = '_'

/-- The newline is whitespace and no blank. -/
theorem isSpace_newline : isSpace '\n' = true ∧ isBlank '\n' = false := by
  decide

/-- Letters and the underscore start words. -/
theorem isWordStart_iff {c : Char} : isWordStart c = true ↔ c.isAlpha = true ∨ c = '_' := by
  rw [isWordStart, Bool.or_eq_true, decide_eq_true_eq]

/-- Every character that can start a word can also continue one. -/
theorem isWordPart_of_isWordStart {c : Char} (h : isWordStart c = true) :
    isWordPart c = true := by
  simp only [isWordStart, isWordPart, Char.isAlphanum, Bool.or_eq_true] at h ⊢
  rcases h with h | h
  · exact Or.inl (Or.inl h)
  · exact Or.inr h

/-- The code points of the digits. -/
theorem toNat_of_isDigit {c : Char} (hc : c.isDigit = true) : 48 ≤ c.toNat ∧ c.toNat ≤ 57 := by
  simpa [Char.isDigit, UInt32.le_iff_toNat_le] using hc

/-- Letters have greater code points than digits. -/
theorem le_toNat_of_isAlpha {c : Char} (hc : c.isAlpha = true) : 65 ≤ c.toNat := by
  rcases Bool.or_eq_true_iff.mp hc with hupper | hlower
  · exact UInt32.le_iff_toNat_le.mp (of_decide_eq_true hupper).1
  · have hle := UInt32.le_iff_toNat_le.mp (of_decide_eq_true (Bool.and_eq_true_iff.mp hlower).1)
    exact Nat.le_trans (by decide) hle

/-- A digit is no whitespace. -/
theorem isSpace_eq_false_of_isDigit {c : Char} (hc : c.isDigit = true) : isSpace c = false := by
  have hrange := toNat_of_isDigit hc
  simp only [isSpace, Bool.or_eq_false_iff, Bool.and_eq_false_iff, decide_eq_false_iff_not]
  omega

/-- A digit starts no word. -/
theorem isWordStart_eq_false_of_isDigit {c : Char} (hc : c.isDigit = true) :
    isWordStart c = false := by
  have hrange := toNat_of_isDigit hc
  rw [Bool.eq_false_iff]
  intro hword
  rcases Bool.or_eq_true_iff.mp hword with hletter | hscore
  · have hle := le_toNat_of_isAlpha hletter
    omega
  · rw [of_decide_eq_true hscore] at hc
    cases hc

/-- A digit is a character of words. -/
theorem isWordPart_of_isDigit {c : Char} (h : c.isDigit = true) : isWordPart c = true := by
  rw [isWordPart, Char.isAlphanum, h, Bool.or_true]
  rfl

/-- A character of words that starts none is a digit. -/
theorem isDigit_of_isWordPart {c : Char} (hpart : isWordPart c = true)
    (hstart : isWordStart c = false) : c.isDigit = true := by
  simp only [isWordPart, isWordStart, Char.isAlphanum, Bool.or_eq_true, Bool.or_eq_false_iff]
    at hpart hstart
  rcases hpart with (hletter | hdigit) | hscore
  · rw [hstart.1] at hletter
    cases hletter
  · exact hdigit
  · rw [hstart.2] at hscore
    cases hscore

/-- Letters and the underscore have greater code points than digits. -/
theorem le_toNat_of_isWordStart {c : Char} (h : isWordStart c = true) : 65 ≤ c.toNat := by
  rcases isWordStart_iff.mp h with hletter | rfl
  · exact le_toNat_of_isAlpha hletter
  · decide

/-- The code points of the characters of words. -/
theorem toNat_of_isWordPart {c : Char} (hc : isWordPart c = true) :
    48 ≤ c.toNat ∧ c.toNat ≤ 122 := by
  rcases Bool.or_eq_true_iff.mp hc with halnum | hscore
  · rcases Bool.or_eq_true_iff.mp halnum with hletter | hdigit
    · have hlow := le_toNat_of_isAlpha hletter
      rcases Bool.or_eq_true_iff.mp hletter with hupper | hlower
      · have hle := UInt32.le_iff_toNat_le.mp (of_decide_eq_true hupper).2
        exact ⟨Nat.le_trans (by decide) hlow, Nat.le_trans hle (by decide)⟩
      · have hle := UInt32.le_iff_toNat_le.mp (of_decide_eq_true (Bool.and_eq_true_iff.mp hlower).2)
        exact ⟨Nat.le_trans (by decide) hlow, hle⟩
    · have hrange := toNat_of_isDigit hdigit
      omega
  · rw [of_decide_eq_true hscore]
    decide

/-- The characters of words are no whitespace. -/
theorem isSpace_eq_false_of_isWordPart {c : Char} (hc : isWordPart c = true) :
    isSpace c = false := by
  have hrange := toNat_of_isWordPart hc
  simp only [isSpace, Bool.or_eq_false_iff, Bool.and_eq_false_iff, decide_eq_false_iff_not]
  omega

end CodeTint.Text
