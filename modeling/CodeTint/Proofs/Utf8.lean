import CodeTint.Scan.Extent
import Mathlib.Tactic.SplitIfs

/-!
# The UTF-8 form of a text

A text is scanned by its characters, but it is kept as bytes. A character below 128 is one byte,
and that byte occurs in the form of no other character. A search for such characters therefore
finds in the bytes what it finds in the text.
-/

namespace CodeTint

namespace Text

/-- The UTF-8 form of a text. -/
def utf8 (text : Text) : List UInt8 :=
  text.flatMap String.utf8EncodeChar

/-- The UTF-8 form of a text starts with that of its first character. -/
theorem utf8_cons (c : Char) (rest : Text) :
    utf8 (c :: rest) = String.utf8EncodeChar c ++ utf8 rest :=
  List.flatMap_cons

/-- The UTF-8 form of two texts in sequence. -/
theorem utf8_append (first last : Text) : utf8 (first ++ last) = utf8 first ++ utf8 last :=
  List.flatMap_append

/-- The size of a text is the length of its UTF-8 form. -/
theorem length_utf8 (text : Text) : (utf8 text).length = bytes text := by
  induction text with
  | nil => rfl
  | cons c rest ih =>
    rw [utf8_cons, List.length_append, String.length_utf8EncodeChar, ih, bytes_cons]

/-- A character below 128 is one byte. -/
theorem utf8EncodeChar_of_lt {c : Char} (hc : c.toNat < 128) :
    String.utf8EncodeChar c = [c.toUInt8] :=
  if_pos (Nat.le_of_lt_succ hc)

/-- A character below 128 has its number as byte. -/
theorem toNat_toUInt8 {c : Char} (hc : c.toNat < 128) : c.toUInt8.toNat = c.toNat := by
  have hmod : c.toUInt8.toNat = c.toNat % 256 := UInt32.toNat_toUInt8 c.val
  omega

/-- Behind its first byte a character has only bytes from 128 on, and a first byte below 128 is
the character itself. -/
theorem utf8EncodeChar_eq_cons (c : Char) :
    ∃ first later, String.utf8EncodeChar c = first :: later ∧
      (first.toNat < 128 → c.toNat = first.toNat) ∧ ∀ byte ∈ later, 128 ≤ byte.toNat := by
  have hmod (n : Nat) : (UInt8.ofNat n).toNat = n % 256 := UInt8.toNat_ofNat'
  have hlater (n : Nat) : 128 ≤ (UInt8.ofNat (n % 64 + 128)).toNat := by
    rw [hmod]
    omega
  by_cases hle : c.val.toNat ≤ 127
  · refine ⟨_, [], utf8EncodeChar_of_lt (Nat.lt_succ_of_le hle), fun _ => ?_, nofun⟩
    exact (toNat_toUInt8 (Nat.lt_succ_of_le hle)).symm
  · rw [String.utf8EncodeChar, if_neg hle]
    -- the first byte of a longer character is from 192 on
    split_ifs
    all_goals
      refine ⟨_, _, rfl, fun hlt => ?_, ?_⟩
      · rw [hmod] at hlt
        omega
      · simp only [List.forall_mem_cons, hlater, List.not_mem_nil, false_imp_iff, implies_true,
          and_self]

/-- The byte of a character below 128 occurs in the UTF-8 form of no other character. -/
theorem eq_of_toUInt8_mem {c d : Char} (hd : d.toNat < 128)
    (h : d.toUInt8 ∈ String.utf8EncodeChar c) : c = d := by
  obtain ⟨first, later, hbytes, hfirst, hlater⟩ := utf8EncodeChar_eq_cons c
  have hbyte := toNat_toUInt8 hd
  rw [hbytes, List.mem_cons] at h
  rcases h with rfl | hmem
  · have hsame := hfirst (by omega)
    exact Char.toNat_inj.mp (by omega)
  · have hle := hlater _ hmem
    omega

/-- The first character can be told from any bytes that start with its UTF-8 form. -/
theorem eq_of_utf8EncodeChar_append {c d : Char} {first last : List UInt8}
    (h : String.utf8EncodeChar c ++ first = String.utf8EncodeChar d ++ last) : c = d := by
  have hread : ∀ {c : Char} {behind : List UInt8},
      (String.utf8EncodeChar c ++ behind).toByteArray.utf8DecodeChar? 0 = some c := by
    intro c behind
    rw [List.toByteArray_append]
    exact ByteArray.utf8DecodeChar?_utf8EncodeChar_append
  have hsame := congrArg (fun bytes : List UInt8 => bytes.toByteArray.utf8DecodeChar? 0) h
  rwa [hread, hread, Option.some.injEq] at hsame

/-- One UTF-8 form begins another one exactly when its text begins the other text. -/
theorem utf8_prefix_iff {front text : Text} : utf8 front <+: utf8 text ↔ front <+: text := by
  constructor
  · intro h
    induction front generalizing text with
    | nil => exact List.nil_prefix
    | cons d front ih =>
      obtain ⟨behind, hbehind⟩ := h
      rw [utf8_cons, List.append_assoc] at hbehind
      cases text with
      | nil =>
        obtain ⟨first, later, hbytes, -, -⟩ := utf8EncodeChar_eq_cons d
        rw [hbytes] at hbehind
        cases hbehind
      | cons c text =>
        rw [utf8_cons] at hbehind
        obtain rfl := eq_of_utf8EncodeChar_append hbehind
        rw [List.append_cancel_left_eq] at hbehind
        exact (List.prefix_cons_inj d).mpr (ih ⟨behind, hbehind⟩)
  · rintro ⟨behind, rfl⟩
    rw [utf8_append]
    exact List.prefix_append _ _

end Text

/-- An extent counted in bytes of the text. -/
def Scan.Extent.inBytes (extent : Extent) (text : Text) : Extent :=
  ⟨Text.bytes (text.take extent.length), extent.closed⟩

end CodeTint
