import CodeTint.Proofs.Markup.Escaping
import CodeTint.Proofs.Source.Offsets
import CodeTint.Proofs.Utf8

/-!
# Escaping in one pass over the bytes

A text can be escaped onto a buffer without looking at its characters: its bytes are passed over,
and whenever one of them is a markup character, all that has been passed over since the last one is
copied as a slice and the entity is put behind it. No byte of a longer character is taken for a
markup character, so every slice starts and stops between two characters, and what is left in the
buffer is the text with each character escaped on its own.
-/

namespace CodeTint.Markup

open Text

/-- The entity that a byte calls for. -/
def entityOfByte? (byte : UInt8) : Option Text :=
  if byte = '&'.toUInt8 then some "&amp;".toList
  else if byte = '<'.toUInt8 then some "&lt;".toList
  else if byte = '>'.toUInt8 then some "&gt;".toList
  else none

/-- The rest of the pass, from the byte at an index on: the bytes since `last` have been passed over
and not been copied yet. A slice that cuts through a character ends the pass without a result. -/
def copyFrom (text buffer : Text) (last index : Nat) : List UInt8 → Option Text
  | [] => do
    let piece ← text.slice? last (bytes text)
    return buffer ++ piece
  | byte :: rest =>
    match entityOfByte? byte with
    | none => copyFrom text buffer last (index + 1) rest
    | some entity => do
      let piece ← text.slice? last index
      copyFrom text (buffer ++ piece ++ entity) (index + 1) (index + 1) rest

/-- A text escaped onto a buffer in one pass over its bytes. -/
def escapeOnto? (buffer text : Text) : Option Text :=
  copyFrom text buffer 0 0 (utf8 text)

/-- A markup character is one byte, and the byte calls for its entity. -/
theorem exists_byte_of_mem_reserved {c : Char} (h : c ∈ reserved) :
    ∃ byte, String.utf8EncodeChar c = [byte] ∧ entityOfByte? byte = some (escapeChar c) := by
  rcases mem_reserved.mp h with rfl | rfl | rfl
  all_goals exact ⟨_, utf8EncodeChar_of_lt (by decide), by decide⟩

/-- No byte of another character calls for an entity. -/
theorem entityOfByte?_of_not_mem {c : Char} (h : c ∉ reserved) :
    ∀ byte ∈ String.utf8EncodeChar c, entityOfByte? byte = none := by
  intro byte hbyte
  have hne : ∀ d ∈ reserved, byte ≠ d.toUInt8 := by
    rintro d hd rfl
    have hlow : d.toNat < 128 := by
      rcases mem_reserved.mp hd with rfl | rfl | rfl <;> decide
    exact h (eq_of_toUInt8_mem hlow hbyte ▸ hd)
  rw [entityOfByte?, if_neg (hne '&' (by decide)), if_neg (hne '<' (by decide)),
    if_neg (hne '>' (by decide))]

section Pass

variable {text buffer copied pending : Text}

/-- Bytes that call for no entity are passed over. -/
theorem copyFrom_run {run : List UInt8} (hrun : ∀ byte ∈ run, entityOfByte? byte = none)
    (last index : Nat) (rest : List UInt8) :
    copyFrom text buffer last index (run ++ rest) =
      copyFrom text buffer last (index + run.length) rest := by
  induction run generalizing index with
  | nil => rfl
  | cons byte run ih =>
    rw [List.cons_append, copyFrom, hrun byte List.mem_cons_self]
    dsimp only
    rw [ih (fun other h => hrun other (List.mem_cons_of_mem byte h)), List.length_cons,
      Nat.add_assoc, Nat.add_comm 1]

/-- A character that needs no entity is passed over with all its bytes. -/
theorem copyFrom_other {c : Char} (hc : c ∉ reserved) (last index : Nat) (rest : Text) :
    copyFrom text buffer last index (utf8 (c :: rest)) =
      copyFrom text buffer last (index + bytes [c]) (utf8 rest) := by
  rw [utf8_cons, copyFrom_run (entityOfByte?_of_not_mem hc), String.length_utf8EncodeChar,
    bytes_cons, bytes_nil, Nat.add_zero]

/-- At a markup character what has been passed over is copied, and its entity is put behind it. -/
theorem copyFrom_reserved {c : Char} (hc : c ∈ reserved) {rest : Text}
    (hwhole : text = copied ++ (pending ++ c :: rest)) :
    copyFrom text buffer (bytes copied) (bytes copied + bytes pending) (utf8 (c :: rest)) =
      copyFrom text (buffer ++ pending ++ escapeChar c) (bytes (copied ++ (pending ++ [c])))
        (bytes (copied ++ (pending ++ [c]))) (utf8 rest) := by
  obtain ⟨byte, hbyte, hentity⟩ := exists_byte_of_mem_reserved hc
  have hsize : bytes (copied ++ (pending ++ [c])) = bytes copied + bytes pending + 1 := by
    have hone : c.utf8Size = 1 := by
      rw [← String.length_utf8EncodeChar, hbyte, List.length_singleton]
    rw [bytes_append, bytes_append, bytes_cons, hone, bytes_nil, Nat.add_assoc]
  rw [utf8_cons, hbyte, List.singleton_append, copyFrom, hentity, hsize, hwhole]
  dsimp only
  rw [slice?_append]
  rfl

/-- At the end what has been passed over is copied. -/
theorem copyFrom_end (hwhole : text = copied ++ pending) (index : Nat) :
    copyFrom text buffer (bytes copied) index [] = some (buffer ++ pending) := by
  have hslice := slice?_append copied pending []
  rw [List.append_nil, ← hwhole, ← bytes_append, ← hwhole] at hslice
  rw [copyFrom, hslice]
  rfl

/-- From any point on the pass copies what is pending and then the rest, escaped. -/
theorem copyFrom_eq (buffer copied : Text) {pending : Text} (hpending : ∀ c ∈ pending, c ∉ reserved)
    (rest : Text) (hwhole : text = copied ++ (pending ++ rest)) :
    copyFrom text buffer (bytes copied) (bytes copied + bytes pending) (utf8 rest) =
      some (buffer ++ (pending ++ escape rest)) := by
  induction rest generalizing buffer copied pending with
  | nil =>
    have hescape : escape [] = [] := rfl
    rw [List.append_nil] at hwhole
    rw [hescape, List.append_nil]
    exact copyFrom_end hwhole _
  | cons c rest ih =>
    have hescape : escape (c :: rest) = escapeChar c ++ escape rest := List.flatMap_cons
    by_cases hc : c ∈ reserved
    · -- nothing is pending behind the entity
      have hnone : ∀ d ∈ ([] : Text), d ∉ reserved := fun d hd => nomatch hd
      have hsplit : text = copied ++ (pending ++ [c]) ++ ([] ++ rest) := by
        rw [hwhole, List.nil_append, List.append_assoc, List.append_assoc, List.singleton_append]
      have hnext := ih (buffer ++ pending ++ escapeChar c) (copied ++ (pending ++ [c])) hnone hsplit
      rw [bytes_nil, Nat.add_zero] at hnext
      rw [copyFrom_reserved hc hwhole, hnext, hescape, List.nil_append]
      simp only [List.append_assoc]
    · have hmore : ∀ d ∈ pending ++ [c], d ∉ reserved := by
        intro d hd
        rcases List.mem_append.mp hd with hd | hd
        · exact hpending d hd
        · exact List.mem_singleton.mp hd ▸ hc
      have hsplit : text = copied ++ (pending ++ [c] ++ rest) := by
        rw [hwhole, List.append_assoc, List.singleton_append]
      have hnext := ih buffer copied hmore hsplit
      rw [bytes_append, ← Nat.add_assoc] at hnext
      rw [copyFrom_other hc, hnext, hescape, escapeChar_of_not_mem hc, List.append_assoc]

end Pass

/-- Escaping a text onto a buffer in one pass always succeeds: the content of the buffer stays in
front, and behind it stands the text with every `&`, `<` and `>` replaced by its entity and all
other characters kept. So escaping goes piece by piece, leaves no angle bracket, and is undone by
replacing the entities, ampersands last. -/
theorem escapeOnto?_substitutes (buffer text behind : Text) :
    escapeOnto? buffer text = some (buffer ++ text.flatMap escapeChar) ∧
      escapeOnto? [] text = some (escape text) ∧
      escape (text ++ behind) = escape text ++ escape behind ∧
      '<' ∉ escape text ∧ '>' ∉ escape text ∧ unescape (escape text) = text := by
  have hnone : ∀ c ∈ ([] : Text), c ∉ reserved := fun c hc => nomatch hc
  have hpass (onto : Text) : escapeOnto? onto text = some (onto ++ escape text) :=
    copyFrom_eq onto [] hnone text rfl
  exact ⟨hpass buffer, hpass [], escape_append text behind,
    not_mem_escape (by decide) (by decide) text, not_mem_escape (by decide) (by decide) text,
    unescape_escape text⟩

/-- Characters of several bytes between markup characters, and a text that looks like an entity. -/
example : escapeOnto? ['>'] "é<&lt;".toList = some ">é&lt;&amp;lt;".toList := by
  decide +kernel

end CodeTint.Markup
