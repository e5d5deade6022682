import CodeTint.Json.Fault

/-!
# Quoted strings in JSON

Writing escapes as little as possible: the quote, the backslash and the characters below the
space, of which five have letters of their own. Reading accepts every escape of the format;
characters outside the sixteen-bit range are written as a pair of surrogates, and a surrogate
without its partner is malformed.
-/

namespace CodeTint.Json

/-- Escape letters with the characters that they stand for. -/
def escapeLetters : List (Char × Char) :=
  [('b', '\x08'), ('f', '\x0c'), ('n', '\n'), ('r', '\r'), ('t', '\t')]

/-- A lower-case hexadecimal digit. -/
def hexDigit (n : Nat) : Char :=
  if n < 10 then Char.ofNat (48 + n) else Char.ofNat (87 + n)

/-- The value of a hexadecimal digit of either case. -/
def hexValue? (c : Char) : Option Nat :=
  if '0' ≤ c ∧ c ≤ '9' then some (c.toNat - 48)
  else if 'a' ≤ c ∧ c ≤ 'f' then some (c.toNat - 87)
  else if 'A' ≤ c ∧ c ≤ 'F' then some (c.toNat - 55)
  else none

/-- What one character is written as between quotes. -/
def writeChar (c : Char) : Text :=
  if c = '"' then ['\\', '"']
  else if c = '\\' then ['\\', '\\']
  else if c.toNat < 0x20 then
    match escapeLetters.find? (·.2 == c) with
    | some (letter, _) => ['\\', letter]
    | none => ['\\', 'u', '0', '0', hexDigit (c.toNat / 16), hexDigit (c.toNat % 16)]
  else [c]

/-- A text between quotes. -/
def writeString (text : Text) : Text :=
  ['"'] ++ text.flatMap writeChar ++ ['"']

/-- Four hexadecimal digits. A text of fewer than four bytes ended too early. -/
def readHex (text : Text) : Reading Nat :=
  match text with
  | a :: b :: c :: d :: rest =>
    match hexValue? a, hexValue? b, hexValue? c, hexValue? d with
    | some a, some b, some c, some d => .ok (((a * 16 + b) * 16 + c) * 16 + d, rest)
    | _, _, _, _ => .error .malformed
  | short => if Text.bytes short < 4 then .error .truncated else .error .malformed

/-- The first half of a surrogate pair. -/
def isHighSurrogate (n : Nat) : Bool :=
  0xD800 ≤ n && n ≤ 0xDBFF

/-- The second half of a surrogate pair. -/
def isLowSurrogate (n : Nat) : Bool :=
  0xDC00 ≤ n && n ≤ 0xDFFF

/-- The second half of a pair whose first half has been read. -/
def readPartner (high : Nat) (text : Text) : Reading Char :=
  match text with
  | [] => .error .truncated
  | '\\' :: [] => .error .truncated
  | '\\' :: 'u' :: rest =>
    match readHex rest with
    | .error fault => .error fault
    | .ok (low, rest) =>
      if isLowSurrogate low then
        .ok (Char.ofNat (0x10000 + (high - 0xD800) * 0x400 + (low - 0xDC00)), rest)
      else .error .malformed
  | _ => .error .malformed

/-- A character given by its number. -/
def readUnicode (text : Text) : Reading Char :=
  match readHex text with
  | .error fault => .error fault
  | .ok (n, rest) =>
    if isLowSurrogate n then .error .malformed
    else if isHighSurrogate n then readPartner n rest
    else .ok (Char.ofNat n, rest)

/-- The character that an escape stands for, behind its backslash. -/
def readEscape (text : Text) : Reading Char :=
  match text with
  | [] => .error .truncated
  | c :: rest =>
    if c = '"' || c = '\\' || c = '/' then .ok (c, rest)
    else if c = 'u' then readUnicode rest
    else
      match escapeLetters.find? (·.1 == c) with
      | some (_, meaning) => .ok (meaning, rest)
      | none => .error .malformed

/-- Four digits are shorter than the text they were read from. -/
theorem readHex_length {text rest : Text} {n : Nat} (h : readHex text = .ok (n, rest)) :
    rest.length < text.length := by
  unfold readHex at h
  split at h
  · split at h
    · simp only [Except.ok.injEq, Prod.mk.injEq] at h
      simp only [← h.2, List.length_cons]
      omega
    · exact nomatch h
  · split at h <;> exact nomatch h

/-- The second half of a pair takes text. -/
theorem readPartner_length {high : Nat} {text rest : Text} {c : Char}
    (h : readPartner high text = .ok (c, rest)) : rest.length < text.length := by
  unfold readPartner at h
  split at h
  · exact nomatch h
  · exact nomatch h
  · split at h
    · exact nomatch h
    · next low behind hhex =>
      have hl := readHex_length hhex
      split at h
      · simp only [Except.ok.injEq, Prod.mk.injEq] at h
        simp only [← h.2, List.length_cons]
        omega
      · exact nomatch h
  · exact nomatch h

/-- A numbered character takes text. -/
theorem readUnicode_length {text rest : Text} {c : Char} (h : readUnicode text = .ok (c, rest)) :
    rest.length < text.length := by
  unfold readUnicode at h
  split at h
  · exact nomatch h
  · next n behind hhex =>
    have hl := readHex_length hhex
    split at h
    · exact nomatch h
    · split at h
      · exact Nat.lt_trans (readPartner_length h) hl
      · simp only [Except.ok.injEq, Prod.mk.injEq] at h
        rw [← h.2]
        exact hl

/-- An escape takes text. -/
theorem readEscape_length {text rest : Text} {c : Char} (h : readEscape text = .ok (c, rest)) :
    rest.length < text.length := by
  unfold readEscape at h
  split at h
  · exact nomatch h
  · next first behind =>
    simp only [List.length_cons]
    split at h
    · simp only [Except.ok.injEq, Prod.mk.injEq] at h
      rw [← h.2]
      omega
    · split at h
      · have hl := readUnicode_length h
        omega
      · split at h
        · simp only [Except.ok.injEq, Prod.mk.injEq] at h
          rw [← h.2]
          omega
        · exact nomatch h

/-- The rest of a quoted string, with the characters already read in reverse order. -/
def readStringOnto (read : Text) (text : Text) : Reading Text :=
  match text with
  | [] => .error .truncated
  | c :: rest =>
    if c = '"' then .ok (read.reverse, rest)
    else if c = '\\' then
      match _h : readEscape rest with
      | .error fault => .error fault
      | .ok (meaning, behind) => readStringOnto (meaning :: read) behind
    else if c.toNat < 0x20 then .error .malformed
    else readStringOnto (c :: read) rest
termination_by text.length
decreasing_by
  · have hl := readEscape_length _h
    simp only [List.length_cons]
    omega
  · simp only [List.length_cons]
    omega

/-- A quoted string behind its opening quote. -/
def readString (text : Text) : Reading Text :=
  readStringOnto [] text

end CodeTint.Json
