import CodeTint.Markup

/-!
# Escaped text

Escaping leaves no angle bracket in a text, and every ampersand that is left begins an entity.
Replacing entities one kind at a time gives the text back when the ampersand comes last: an
ampersand that is put back early could begin what looks like another entity.
-/

namespace CodeTint

namespace Text

/-- A text with every occurrence of a nonempty pattern replaced, where some characters of an
occurrence are still to be passed over. -/
def replaceFrom (pattern new : Text) : Nat → Text → Text
  | _, [] => []
  | left + 1, _ :: rest => replaceFrom pattern new left rest
  | 0, c :: rest =>
    if pattern.isPrefixOf (c :: rest) then
      new ++ replaceFrom pattern new (pattern.length - 1) rest
    else c :: replaceFrom pattern new 0 rest

/-- A text with every occurrence of a nonempty pattern replaced, from the left and without
overlaps. -/
def replaceAll (pattern new text : Text) : Text :=
  replaceFrom pattern new 0 text

/-- What is still to be passed over is dropped. -/
theorem replaceFrom_length (pattern new front rest : Text) :
    replaceFrom pattern new front.length (front ++ rest) = replaceFrom pattern new 0 rest := by
  induction front with
  | nil => rfl
  | cons c front ih => exact ih

/-- An occurrence at the front is replaced. -/
theorem replaceFrom_pattern {pattern : Text} (h : pattern ≠ []) (new rest : Text) :
    replaceFrom pattern new 0 (pattern ++ rest) = new ++ replaceFrom pattern new 0 rest := by
  cases pattern with
  | nil => exact absurd rfl h
  | cons c tail =>
    have hfront : (c :: tail).isPrefixOf (c :: (tail ++ rest)) = true :=
      List.isPrefixOf_iff_prefix.mpr (List.prefix_append (c :: tail) rest)
    rw [List.cons_append, replaceFrom, if_pos hfront, List.length_cons, Nat.add_sub_cancel,
      replaceFrom_length]

/-- A character with which no occurrence begins stays. -/
theorem replaceFrom_cons {pattern : Text} {c : Char} {rest : Text}
    (h : ¬ pattern <+: c :: rest) (new : Text) :
    replaceFrom pattern new 0 (c :: rest) = c :: replaceFrom pattern new 0 rest := by
  rw [replaceFrom, if_neg (mt List.isPrefixOf_iff_prefix.mp h)]

/-- A text without the first character of the pattern stays. -/
theorem replaceFrom_of_not_mem {first : Char} {front : Text} (h : first ∉ front)
    (tail new rest : Text) :
    replaceFrom (first :: tail) new 0 (front ++ rest) =
      front ++ replaceFrom (first :: tail) new 0 rest := by
  induction front with
  | nil => rfl
  | cons c front ih =>
    have hfirst : ¬ first :: tail <+: c :: (front ++ rest) := by
      intro hbegin
      exact h (List.mem_cons.mpr (Or.inl (List.cons_prefix_cons.mp hbegin).1))
    rw [List.cons_append, replaceFrom_cons hfirst,
      ih fun hmem => h (List.mem_cons_of_mem c hmem), List.cons_append]

/-- A character of two texts in sequence stands in the first or in the second one. -/
theorem append_eq_append_cons {c : Char} {first last front rest : Text}
    (h : first ++ last = front ++ c :: rest) :
    (∃ left, first = front ++ c :: left ∧ rest = left ++ last) ∨
      ∃ passed, front = first ++ passed ∧ last = passed ++ c :: rest := by
  rcases List.append_eq_append_iff.mp h with ⟨passed, hfront, hlast⟩ | ⟨taken, hfirst, hrest⟩
  · exact Or.inr ⟨passed, hfront, hlast⟩
  · cases taken with
    | nil =>
      rw [List.append_nil] at hfirst
      exact Or.inr ⟨[], by rw [hfirst, List.append_nil], hrest.symm⟩
    | cons d left =>
      rw [List.cons_append, List.cons.injEq] at hrest
      obtain ⟨rfl, hrest⟩ := hrest
      exact Or.inl ⟨left, hfirst, hrest⟩

/-- A character that is not in the first of two texts stands in the second one. -/
theorem exists_of_append_eq {c : Char} {first last front rest : Text} (hfirst : c ∉ first)
    (h : first ++ last = front ++ c :: rest) :
    ∃ passed, front = first ++ passed ∧ last = passed ++ c :: rest := by
  refine (append_eq_append_cons h).resolve_left ?_
  rintro ⟨left, rfl, -⟩
  exact hfirst (List.mem_append_right front List.mem_cons_self)

/-- Two texts without a delimiter are the same when they are the same up to where the delimiter or
the end comes. -/
theorem eq_of_append_eq {c : Char} {first last rest other : Text} (hfirst : c ∉ first)
    (hlast : c ∉ last) (hrest : ∀ d ∈ rest.head?, d = c) (hother : ∀ d ∈ other.head?, d = c)
    (h : first ++ rest = last ++ other) : first = last ∧ rest = other := by
  rcases List.append_eq_append_iff.mp h with ⟨more, rfl, rfl⟩ | ⟨more, rfl, rfl⟩
  · cases more with
    | nil => exact ⟨(List.append_nil first).symm, rfl⟩
    | cons d more =>
      rw [hrest d rfl] at hlast
      exact absurd (List.mem_append_right first List.mem_cons_self) hlast
  · cases more with
    | nil => exact ⟨List.append_nil last, rfl⟩
    | cons d more =>
      rw [hother d rfl] at hfirst
      exact absurd (List.mem_append_right last List.mem_cons_self) hfirst

/-- Two texts without a delimiter are the same when they are the same up to it. -/
theorem eq_of_append_cons_eq {c : Char} {first last rest other : Text} (hfirst : c ∉ first)
    (hlast : c ∉ last) (h : first ++ c :: rest = last ++ c :: other) :
    first = last ∧ rest = other := by
  have hhead : ∀ behind : Text, ∀ d ∈ (c :: behind).head?, d = c :=
    fun _ d hd => (Option.mem_some_iff.mp hd).symm
  obtain ⟨hsame, hbehind⟩ := eq_of_append_eq hfirst hlast (hhead rest) (hhead other) h
  exact ⟨hsame, (List.cons.inj hbehind).2⟩

/-- A character of a text that is written piece by piece stands in one of the pieces. -/
theorem exists_of_flatMap_eq {α : Type} {write : α → Text} {items : List α} {c : Char}
    {front rest : Text} (h : items.flatMap write = front ++ c :: rest) :
    ∃ before item behind passed left, items = before ++ item :: behind ∧
      write item = passed ++ c :: left ∧ front = before.flatMap write ++ passed ∧
      rest = left ++ behind.flatMap write := by
  induction items generalizing front with
  | nil =>
    rw [List.flatMap_nil] at h
    exact absurd h (by simp)
  | cons item items ih =>
    rw [List.flatMap_cons] at h
    rcases append_eq_append_cons h with ⟨left, hitem, hrest⟩ | ⟨passed, rfl, hitems⟩
    · exact ⟨[], item, items, front, left, rfl, hitem, rfl, hrest⟩
    · obtain ⟨before, other, behind, inside, left, rfl, hother, rfl, hrest⟩ := ih hitems
      refine ⟨item :: before, other, behind, inside, left, rfl, hother, ?_, hrest⟩
      rw [List.flatMap_cons, List.append_assoc]

end Text

namespace Markup

/-- The characters that are written as entities. -/
def reserved : Text :=
  ['&', '<', '>']

/-- The ampersand and the angle brackets are reserved. -/
theorem mem_reserved {c : Char} : c ∈ reserved ↔ c = '&' ∨ c = '<' ∨ c = '>' := by
  simp only [reserved, List.mem_cons, List.not_mem_nil, or_false]

/-- The entity of a reserved character is an ampersand and a name without reserved characters. -/
theorem exists_entity {c : Char} (h : c ∈ reserved) :
    ∃ name, escapeChar c = '&' :: name ∧ ∀ d ∈ reserved, d ∉ name := by
  rcases mem_reserved.mp h with rfl | rfl | rfl
  all_goals
    refine ⟨_, rfl, fun d hd => ?_⟩
    rcases mem_reserved.mp hd with rfl | rfl | rfl <;> decide

/-- Every other character is written as it is. -/
theorem escapeChar_of_not_mem {c : Char} (h : c ∉ reserved) : escapeChar c = [c] := by
  rw [mem_reserved, not_or, not_or] at h
  rw [escapeChar, if_neg h.1, if_neg h.2.1, if_neg h.2.2]

/-- No entity begins another one. -/
theorem eq_of_entity_begins {c d : Char} {rest : Text} (hc : c ∈ reserved) (hd : d ∈ reserved)
    (h : escapeChar c <+: escapeChar d ++ rest) : c = d := by
  have heither := List.prefix_or_prefix_of_prefix h (List.prefix_append _ rest)
  rcases mem_reserved.mp hc with rfl | rfl | rfl
  all_goals
    rcases mem_reserved.mp hd with rfl | rfl | rfl <;> revert heither <;> decide

/-- An escaped text has no angle bracket. -/
theorem not_mem_escape {c : Char} (hc : c ∈ reserved) (hamp : c ≠ '&') (text : Text) :
    c ∉ escape text := by
  intro hmem
  obtain ⟨d, -, hd⟩ := List.mem_flatMap.mp hmem
  by_cases hreserved : d ∈ reserved
  · obtain ⟨name, hentity, hname⟩ := exists_entity hreserved
    rw [hentity] at hd
    exact hname c hc (List.mem_of_ne_of_mem hamp hd)
  · rw [escapeChar_of_not_mem hreserved, List.mem_singleton] at hd
    exact hreserved (hd ▸ hc)

/-- An ampersand of an escaped text begins an entity. -/
theorem entity_prefix_of_escape {text front rest : Text} (h : escape text = front ++ '&' :: rest) :
    ∃ c ∈ reserved, escapeChar c <+: '&' :: rest := by
  obtain ⟨before, c, behind, passed, left, -, hc, -, rfl⟩ := Text.exists_of_flatMap_eq h
  have hamp : '&' ∈ escapeChar c := hc ▸ List.mem_append_right passed List.mem_cons_self
  by_cases hreserved : c ∈ reserved
  · refine ⟨c, hreserved, ?_⟩
    obtain ⟨name, hentity, hname⟩ := exists_entity hreserved
    -- the name holds no ampersand, so the one that was found is the first character
    cases passed with
    | nil =>
      rw [hc, List.nil_append]
      exact List.prefix_append ('&' :: left) _
    | cons d passed =>
      rw [hentity, List.cons_append, List.cons.injEq] at hc
      exact absurd (hc.2 ▸ List.mem_append_right passed List.mem_cons_self)
        (hname '&' List.mem_cons_self)
  · rw [escapeChar_of_not_mem hreserved, List.mem_singleton] at hamp
    exact absurd (hamp ▸ List.mem_cons_self) hreserved

/-- What one character is written as when some characters are written bare. -/
def escapeExcept (bare : Text) (c : Char) : Text :=
  if c ∈ bare then [c] else escapeChar c

/-- Replacing the entity of a character writes that character bare, as long as ampersands are
not. -/
theorem replaceAll_flatMap_escapeExcept {bare : Text} {c : Char} (hc : c ∈ reserved)
    (hbare : '&' ∉ bare) (text : Text) :
    Text.replaceAll (escapeChar c) [c] (text.flatMap (escapeExcept bare)) =
      text.flatMap (escapeExcept (c :: bare)) := by
  obtain ⟨name, hentity, -⟩ := exists_entity hc
  induction text with
  | nil => rfl
  | cons d text ih =>
    rw [Text.replaceAll] at ih
    rw [Text.replaceAll, List.flatMap_cons, List.flatMap_cons, ← ih]
    by_cases hd : d ∈ bare
    · have hamp : '&' ∉ [d] := fun h => hbare (List.mem_singleton.mp h ▸ hd)
      rw [escapeExcept, if_pos hd, escapeExcept, if_pos (List.mem_cons_of_mem c hd), hentity,
        Text.replaceFrom_of_not_mem hamp]
    · rw [escapeExcept, if_neg hd]
      by_cases hcd : d = c
      · rw [escapeExcept, if_pos (List.mem_cons.mpr (Or.inl hcd)), hcd,
          Text.replaceFrom_pattern (hentity ▸ List.cons_ne_nil _ _)]
      · rw [escapeExcept, if_neg (List.not_mem_cons_of_ne_of_not_mem hcd hd)]
        by_cases hreserved : d ∈ reserved
        · obtain ⟨other, hother, hname⟩ := exists_entity hreserved
          have hbegin : ¬ escapeChar c <+: escapeChar d ++ text.flatMap (escapeExcept bare) :=
            fun h => hcd (eq_of_entity_begins hc hreserved h).symm
          rw [hother, List.cons_append] at hbegin ⊢
          rw [Text.replaceFrom_cons hbegin, hentity,
            Text.replaceFrom_of_not_mem (hname '&' List.mem_cons_self), List.cons_append]
        · have hamp : '&' ∉ [d] := fun h =>
            hreserved (List.mem_singleton.mp h ▸ List.mem_cons_self)
          rw [escapeChar_of_not_mem hreserved, hentity, Text.replaceFrom_of_not_mem hamp]

/-- A text with its entities replaced by the characters they stand for, ampersands last. -/
def unescape (text : Text) : Text :=
  Text.replaceAll "&amp;".toList ['&']
    (Text.replaceAll "&gt;".toList ['>'] (Text.replaceAll "&lt;".toList ['<'] text))

/-- Replacing the entities of an escaped text gives the text back. -/
theorem unescape_escape (text : Text) : unescape (escape text) = text := by
  have hescape : escape text = text.flatMap (escapeExcept []) := rfl
  have hbare : escapeExcept ['&', '>', '<'] = fun c => [c] := by
    funext c
    by_cases hc : c ∈ ['&', '>', '<']
    · exact if_pos hc
    · rw [escapeExcept, if_neg hc, escapeChar_of_not_mem]
      simpa [reserved, and_comm] using hc
  calc unescape (escape text)
      = Text.replaceAll (escapeChar '&') ['&'] (Text.replaceAll (escapeChar '>') ['>']
          (Text.replaceAll (escapeChar '<') ['<'] (text.flatMap (escapeExcept [])))) := by
        rw [← hescape]
        rfl
    _ = text.flatMap (escapeExcept ['&', '>', '<']) := by
        rw [replaceAll_flatMap_escapeExcept (by decide) (by decide),
          replaceAll_flatMap_escapeExcept (by decide) (by decide),
          replaceAll_flatMap_escapeExcept (by decide) (by decide)]
    _ = text := by
        rw [hbare, List.flatMap_singleton']

/-- Texts that are escaped alike are the same. -/
theorem escape_injective : Function.Injective escape :=
  Function.LeftInverse.injective unescape_escape

/-- Only the empty text is escaped to nothing. -/
theorem escape_eq_nil_iff {text : Text} : escape text = [] ↔ text = [] := by
  constructor
  · exact fun h => escape_injective (h.trans rfl)
  · rintro rfl
    rfl

end Markup

end CodeTint
