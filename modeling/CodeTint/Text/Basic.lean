/-!
# Texts and their size in bytes

A text is the list of its Unicode characters. Offsets shown to the outside are counted in bytes
of the UTF-8 form, so the byte size of a text is the measure that spans are made of. This module
holds that measure, the prefix that fits into a number of bytes, the first place where a pattern
occurs, and the decimal text of a number.
-/

namespace CodeTint

/-- Characters in order: a source under scan or a document under assembly. -/
abbrev Text := List Char

namespace Text

/-- Size of the UTF-8 form in bytes. -/
def bytes (text : Text) : Nat :=
  text.foldl (fun size c => size + c.utf8Size) 0

/-- Counting on from a size adds it. -/
theorem foldl_utf8Size (size : Nat) (text : Text) :
    text.foldl (fun size c => size + c.utf8Size) size = size + bytes text := by
  induction text generalizing size with
  | nil => rfl
  | cons c rest ih =>
    simp only [bytes, List.foldl_cons]
    rw [ih, ih (0 + c.utf8Size)]
    omega

@[simp] theorem bytes_nil : bytes [] = 0 := rfl

@[simp] theorem bytes_cons (c : Char) (rest : Text) :
    bytes (c :: rest) = c.utf8Size + bytes rest := by
  rw [bytes, List.foldl_cons, foldl_utf8Size, Nat.zero_add]

@[simp] theorem bytes_append (first last : Text) :
    bytes (first ++ last) = bytes first + bytes last := by
  rw [bytes, List.foldl_append, foldl_utf8Size, foldl_utf8Size, Nat.zero_add]

/-- A character takes its bytes as often as it is repeated. -/
theorem bytes_replicate (n : Nat) (c : Char) : bytes (List.replicate n c) = n * c.utf8Size := by
  induction n with
  | zero => rw [List.replicate_zero, bytes_nil, Nat.zero_mul]
  | succ n ih => rw [List.replicate_succ, bytes_cons, ih, Nat.succ_mul, Nat.add_comm]

/-- A text has at least as many bytes as characters. -/
theorem length_le_bytes (text : Text) : text.length ≤ bytes text := by
  induction text with
  | nil => exact Nat.le_refl 0
  | cons c rest ih =>
    have hc := c.utf8Size_pos
    simp only [List.length_cons, bytes_cons]
    omega

/-- Number of leading characters in a class. -/
def runLength (p : Char → Bool) (text : Text) : Nat :=
  (text.takeWhile p).length

/-- A run of leading characters ends inside the text. -/
theorem runLength_le (p : Char → Bool) (text : Text) : runLength p text ≤ text.length :=
  (List.takeWhile_prefix p).length_le

/-- Number of characters in the longest prefix that fits into a number of bytes. -/
def fitLength (budget : Nat) : Text → Nat
  | [] => 0
  | c :: rest =>
    if c.utf8Size ≤ budget then fitLength (budget - c.utf8Size) rest + 1 else 0

/-- Search for a pattern with the number of characters already passed over. -/
def indexFrom? (pattern : Text) (passed : Nat) : Text → Option Nat
  | [] => if pattern.isEmpty then some passed else none
  | c :: rest =>
    if pattern.isPrefixOf (c :: rest) then some passed
    else indexFrom? pattern (passed + 1) rest

/-- Number of characters before the first occurrence of a pattern. -/
def indexOf? (pattern text : Text) : Option Nat :=
  indexFrom? pattern 0 text

/-- An occurrence lies wholly inside the text. -/
theorem indexFrom?_bound {pattern text : Text} {passed index : Nat}
    (h : indexFrom? pattern passed text = some index) :
    index + pattern.length ≤ passed + text.length := by
  induction text generalizing passed with
  | nil =>
    simp only [indexFrom?] at h
    split at h
    · next hp =>
      simp only [Option.some.injEq] at h
      simp only [List.isEmpty_iff] at hp
      simp only [hp, List.length_nil]
      omega
    · exact nomatch h
  | cons c rest ih =>
    simp only [indexFrom?] at h
    split at h
    · next hp =>
      simp only [Option.some.injEq] at h
      have hl := (List.isPrefixOf_iff_prefix.mp hp).length_le
      omega
    · have hi := ih h
      simp only [List.length_cons]
      omega

/-- An occurrence lies wholly inside the text that was searched. -/
theorem indexOf?_bound {pattern text : Text} {index : Nat}
    (h : indexOf? pattern text = some index) : index + pattern.length ≤ text.length := by
  have hb := indexFrom?_bound h
  omega

/-- The decimal digits of a number. -/
def digits (n : Nat) : Text :=
  Nat.toDigits 10 n

/-- The decimal digits of an integer behind its sign. -/
def signedDigits (n : Int) : Text :=
  if n < 0 then '-' :: digits n.natAbs else digits n.natAbs

end Text

end CodeTint
