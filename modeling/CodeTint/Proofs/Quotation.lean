import CodeTint.Json.Object

/-!
# Quoted strings are read back

Whatever a character is written as between quotes, the reader takes exactly that much text and
gives the character back, so a written string is read to its closing quote and no further. What
stands behind it does not matter.
-/

namespace CodeTint.Json

/-- A hexadecimal digit has the value that it was written for. -/
theorem hexValue?_hexDigit {n : Nat} (h : n < 16) : hexValue? (hexDigit n) = some n := by
  have hall : ∀ n < 16, hexValue? (hexDigit n) = some n := by
    decide
  exact hall n h

/-- Four digits that start with two zeros are read as the number of one byte. -/
theorem readHex_byte {n : Nat} (h : n < 256) (rest : Text) :
    readHex ('0' :: '0' :: hexDigit (n / 16) :: hexDigit (n % 16) :: rest) = .ok (n, rest) := by
  have hzero : hexValue? '0' = some 0 := by
    decide
  have hhigh := hexValue?_hexDigit (n := n / 16) (by omega)
  have hlow := hexValue?_hexDigit (n := n % 16) (by omega)
  have hnumber : ((0 * 16 + 0) * 16 + n / 16) * 16 + n % 16 = n := by
    omega
  simp only [readHex, hzero, hhigh, hlow, hnumber]

/-- A number of one byte is no surrogate, so the character with that number is read. -/
theorem readEscape_byte {c : Char} (h : c.toNat < 256) (rest : Text) :
    readEscape ('u' :: '0' :: '0' :: hexDigit (c.toNat / 16) :: hexDigit (c.toNat % 16) :: rest) =
      .ok (c, rest) := by
  have hlow : isLowSurrogate c.toNat = false := by
    rw [isLowSurrogate, Bool.and_eq_false_iff, decide_eq_false_iff_not]
    omega
  have hhigh : isHighSurrogate c.toNat = false := by
    rw [isHighSurrogate, Bool.and_eq_false_iff, decide_eq_false_iff_not]
    omega
  rw [readEscape, if_neg (by decide), if_pos rfl, readUnicode, readHex_byte h]
  simp only [hlow, hhigh, Bool.false_eq_true, if_false, Char.ofNat_toNat]

/-- An escape letter is read as the character that it stands for. -/
theorem readEscape_letter {entry : Char × Char} (h : entry ∈ escapeLetters) (rest : Text) :
    readEscape (entry.1 :: rest) = .ok (entry.2, rest) := by
  have hall : ∀ entry ∈ escapeLetters,
      (entry.1 = '"' || entry.1 = '\\' || entry.1 = '/') = false ∧ entry.1 ≠ 'u' ∧
        escapeLetters.find? (·.1 == entry.1) = some entry := by
    decide
  obtain ⟨hself, hnumber, hfind⟩ := hall entry h
  rw [readEscape, hself, if_neg Bool.false_ne_true, if_neg hnumber, hfind]

/-- A quote and a backslash are read as themselves. -/
theorem readEscape_self {c : Char} (h : c = '"' ∨ c = '\\') (rest : Text) :
    readEscape (c :: rest) = .ok (c, rest) := by
  have hself : (c = '"' || c = '\\' || c = '/') = true := by
    rcases h with rfl | rfl <;> decide
  rw [readEscape, if_pos hself]

/-- The closing quote ends the string. -/
theorem readStringOnto_quote (read rest : Text) :
    readStringOnto read ('"' :: rest) = .ok (read.reverse, rest) := by
  rw [readStringOnto, if_pos rfl]

/-- An escape that can be read adds its character. -/
theorem readStringOnto_escape {escape behind : Text} {c : Char}
    (h : readEscape escape = .ok (c, behind)) (read : Text) :
    readStringOnto read ('\\' :: escape) = readStringOnto (c :: read) behind := by
  rw [readStringOnto, if_neg (by decide), if_pos rfl]
  split
  · next fault hfault => cases h.symm.trans hfault
  · next meaning rest hrest =>
    obtain ⟨rfl, rfl⟩ := Prod.mk.inj (Except.ok.inj (h.symm.trans hrest))
    rfl

/-- A character that needs no escape adds itself. -/
theorem readStringOnto_plain {c : Char} (hquote : c ≠ '"') (hslash : c ≠ '\\')
    (hhigh : ¬ c.toNat < 0x20) (read rest : Text) :
    readStringOnto read (c :: rest) = readStringOnto (c :: read) rest := by
  rw [readStringOnto, if_neg hquote, if_neg hslash, if_neg hhigh]

/-- Each character is read back from what it is written as. -/
theorem readStringOnto_writeChar (read : Text) (c : Char) (rest : Text) :
    readStringOnto read (writeChar c ++ rest) = readStringOnto (c :: read) rest := by
  rw [writeChar]
  split
  · next hquote =>
    subst hquote
    exact readStringOnto_escape (readEscape_self (Or.inl rfl) rest) read
  · next hquote =>
    split
    · next hslash =>
      subst hslash
      exact readStringOnto_escape (readEscape_self (Or.inr rfl) rest) read
    · next hslash =>
      split
      · next hlow =>
        split
        · next letter meaning hfind =>
          have hmatch := List.find?_some hfind
          have hmeaning : meaning = c := eq_of_beq hmatch
          have hletter := readEscape_letter (List.mem_of_find?_eq_some hfind) rest
          rw [hmeaning] at hletter
          exact readStringOnto_escape hletter read
        · exact readStringOnto_escape (readEscape_byte (by omega) rest) read
      · next hhigh => exact readStringOnto_plain hquote hslash hhigh read rest

/-- Written characters are read back one after the other. -/
theorem readStringOnto_flatMap (read text rest : Text) :
    readStringOnto read (text.flatMap writeChar ++ rest) =
      readStringOnto (text.reverse ++ read) rest := by
  induction text generalizing read with
  | nil => rfl
  | cons c text ih =>
    rw [List.flatMap_cons, List.append_assoc, readStringOnto_writeChar, ih, List.reverse_cons,
      List.append_assoc, List.singleton_append]

/-- A written string is its opening quote and what the reader takes. -/
theorem writeString_append (text rest : Text) :
    writeString text ++ rest = '"' :: (text.flatMap writeChar ++ '"' :: rest) := by
  simp only [writeString, List.cons_append, List.nil_append, List.append_assoc]

/-- A written string is read back behind its opening quote. -/
theorem readString_flatMap (text rest : Text) :
    readString (text.flatMap writeChar ++ '"' :: rest) = .ok (text, rest) := by
  rw [readString, readStringOnto_flatMap, readStringOnto_quote, List.append_nil,
    List.reverse_reverse]

end CodeTint.Json
