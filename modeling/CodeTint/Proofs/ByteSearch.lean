import CodeTint.Proofs.Utf8

/-!
# Searching the UTF-8 form

The first byte of a character below 128 occurs nowhere inside another character. A pattern that
starts with such a character is therefore found in the bytes of a text where it is found in the
text, and never inside a character.
-/

namespace CodeTint.Text

/-- Search for a pattern in some bytes with the number of bytes already passed over. -/
def findFrom? (pattern : List UInt8) (passed : Nat) : List UInt8 → Option Nat
  | [] => if pattern.isEmpty then some passed else none
  | byte :: rest =>
    if pattern.isPrefixOf (byte :: rest) then some passed
    else findFrom? pattern (passed + 1) rest

/-- Index of the first occurrence of a pattern at or behind an index. -/
def findAt? (pattern : List UInt8) (index : Nat) (utf8 : List UInt8) : Option Nat :=
  findFrom? pattern index (utf8.drop index)

/-- A byte is found where there is one. -/
theorem findFrom?_bound {byte : UInt8} {bytes : List UInt8} {passed index : Nat}
    (h : findFrom? [byte] passed bytes = some index) :
    passed ≤ index ∧ index < passed + bytes.length := by
  induction bytes generalizing passed with
  | nil => cases h
  | cons first rest ih =>
    rw [findFrom?] at h
    split at h
    · cases h
      exact ⟨Nat.le_refl _, Nat.lt_add_of_pos_right (Nat.succ_pos _)⟩
    · have hrest := ih h
      rw [List.length_cons]
      omega

/-- A byte that is found at or behind an index lies there and inside the bytes. -/
theorem findAt?_bound {byte : UInt8} {bytes : List UInt8} {start index : Nat}
    (h : findAt? [byte] start bytes = some index) : start ≤ index ∧ index < bytes.length := by
  have hbound := findFrom?_bound h
  rw [List.length_drop] at hbound
  omega

/-- Bytes that cannot start the pattern are passed over. -/
theorem findFrom?_run {first : UInt8} {run : List UInt8} (hrun : first ∉ run)
    (pattern : List UInt8) (passed : Nat) (rest : List UInt8) :
    findFrom? (first :: pattern) passed (run ++ rest) =
      findFrom? (first :: pattern) (passed + run.length) rest := by
  induction run generalizing passed with
  | nil => rfl
  | cons byte run ih =>
    rw [List.mem_cons, not_or] at hrun
    have hno : ¬ (first :: pattern).isPrefixOf (byte :: (run ++ rest)) = true := by
      rw [List.isPrefixOf_iff_prefix, List.cons_prefix_cons]
      exact fun h => hrun.1 h.1
    rw [List.cons_append, findFrom?, if_neg hno, ih hrun.2, List.length_cons]
    congr 1
    omega

/-- A pattern that starts below 128 is found in the bytes of a text behind a front where it is found
in the text. -/
theorem findFrom?_utf8 {d : Char} (hd : d.toNat < 128) (pattern front text : Text) :
    findFrom? (utf8 (d :: pattern)) (bytes front) (utf8 text) =
      (indexFrom? (d :: pattern) front.length text).map fun index =>
        bytes ((front ++ text).take index) := by
  have hpattern : utf8 (d :: pattern) = d.toUInt8 :: utf8 pattern := by
    rw [utf8_cons, utf8EncodeChar_of_lt hd]
    rfl
  induction text generalizing front with
  | nil =>
    rw [hpattern]
    rfl
  | cons c text ih =>
    obtain ⟨first, later, hbytes, -, hlater⟩ := utf8EncodeChar_eq_cons c
    have hwhole : utf8 (c :: text) = first :: (later ++ utf8 text) := by
      rw [utf8_cons, hbytes]
      rfl
    by_cases hbegin : d :: pattern <+: c :: text
    · have hbegins := utf8_prefix_iff.mpr hbegin
      rw [hwhole] at hbegins ⊢
      rw [findFrom?, if_pos (List.isPrefixOf_iff_prefix.mpr hbegins), indexFrom?,
        if_pos (List.isPrefixOf_iff_prefix.mpr hbegin), Option.map_some, List.take_left]
    · have hbegins := mt utf8_prefix_iff.mp hbegin
      have hnext := ih (front ++ [c])
      have hmem : d.toUInt8 ∉ later := by
        intro hmem
        have hle := hlater _ hmem
        rw [toNat_toUInt8 hd] at hle
        omega
      have hsize : bytes front + 1 + later.length = bytes (front ++ [c]) := by
        have hlength := String.length_utf8EncodeChar c
        rw [hbytes, List.length_cons] at hlength
        rw [bytes_append, bytes_cons, bytes_nil]
        omega
      rw [List.append_assoc, List.length_append] at hnext
      rw [hwhole] at hbegins ⊢
      rw [findFrom?, if_neg (mt List.isPrefixOf_iff_prefix.mp hbegins), hpattern,
        findFrom?_run hmem, hsize, ← hpattern, hnext, indexFrom?,
        if_neg (mt List.isPrefixOf_iff_prefix.mp hbegin)]
      rfl

/-- Searched behind a front, a pattern that starts below 128 is found in the bytes where it is found
in the text. -/
theorem findAt?_utf8 {d : Char} (hd : d.toNat < 128) (pattern front text : Text) :
    findAt? (utf8 (d :: pattern)) (bytes front) (utf8 (front ++ text)) =
      (indexFrom? (d :: pattern) front.length text).map fun index =>
        bytes ((front ++ text).take index) := by
  rw [findAt?, utf8_append, ← length_utf8, List.drop_left, length_utf8, findFrom?_utf8 hd]

/-- Characters that are counted as passed over are added to what is found. -/
theorem indexFrom?_add (pattern text : Text) (passed start : Nat) :
    indexFrom? pattern (passed + start) text =
      (indexFrom? pattern start text).map (passed + ·) := by
  induction text generalizing start with
  | nil =>
    rw [indexFrom?, indexFrom?]
    split <;> rfl
  | cons c text ih =>
    rw [indexFrom?, indexFrom?]
    split
    · rfl
    · rw [Nat.add_assoc, ih]

/-- A single character is found behind those that are others. -/
theorem indexFrom?_singleton (c : Char) (passed : Nat) (text : Text) :
    indexFrom? [c] passed text =
      if c ∈ text then some (passed + runLength (· ≠ c) text) else none := by
  induction text generalizing passed with
  | nil => rfl
  | cons d text ih =>
    by_cases hd : d = c
    · subst hd
      simp [indexFrom?, runLength]
    · have hne : ¬ [c].isPrefixOf (d :: text) = true := by
        rw [List.isPrefixOf_iff_prefix, List.cons_prefix_cons]
        exact fun h => hd h.1.symm
      have hrun : runLength (· ≠ c) (d :: text) = runLength (· ≠ c) text + 1 := by
        simp [runLength, hd]
      rw [indexFrom?, if_neg hne, ih, hrun]
      simp only [List.mem_cons, Ne.symm hd, false_or]
      congr 2
      omega

end CodeTint.Text
