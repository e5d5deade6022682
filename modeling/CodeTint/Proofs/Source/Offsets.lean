import CodeTint.Proofs.Directives
import CodeTint.Proofs.Partition
import Mathlib.Data.Nat.Find
import Mathlib.Order.Monotone.Basic

/-!
# Offsets inside and behind a text

An offset of any size cuts a text: in front of the cut is as much of the text as fits into that
many bytes. An offset inside a character so counts as the start of the character, and one behind
the text as its end. That is the last offset up to the given one at which a character starts or the
text ends.
-/

namespace CodeTint.Text

/-- A text is cut at an offset: the front fits into the bytes before the offset, and the next
character, when there is one, does not fit any more. -/
structure CutAt (text : Text) (offset : Nat) (front rest : Text) : Prop where
  /-- Nothing but the two pieces. -/
  whole : text = front ++ rest
  /-- The front ends at or before the offset. -/
  fits : bytes front ≤ offset
  /-- The next character ends behind the offset. -/
  full : ∀ c ∈ rest.head?, offset < bytes front + c.utf8Size

/-- The characters of a cut text are those that fit. -/
theorem CutAt.fitLength_eq {text : Text} {offset : Nat} {front rest : Text}
    (h : text.CutAt offset front rest) : fitLength offset text = front.length := by
  obtain ⟨rfl, hfits, hfull⟩ := h
  induction front generalizing offset with
  | nil =>
    cases rest with
    | nil => rfl
    | cons c rest =>
      have hc : offset < bytes [] + c.utf8Size := hfull c rfl
      rw [bytes_nil, Nat.zero_add] at hc
      exact if_neg (Nat.not_le_of_lt hc)
  | cons c front ih =>
    rw [bytes_cons] at hfits hfull
    have hrest : ∀ d ∈ rest.head?, offset - c.utf8Size < bytes front + d.utf8Size := by
      intro d hd
      have hlt := hfull d hd
      omega
    rw [List.cons_append, fitLength, if_pos (by omega), ih (by omega) hrest, List.length_cons]

/-- Every offset cuts a text. -/
theorem exists_cutAt (text : Text) (offset : Nat) : ∃ front rest, text.CutAt offset front rest := by
  induction text generalizing offset with
  | nil => exact ⟨[], [], rfl, Nat.zero_le _, fun c hc => nomatch hc⟩
  | cons c text ih =>
    by_cases hc : c.utf8Size ≤ offset
    · obtain ⟨front, rest, rfl, hfits, hfull⟩ := ih (offset - c.utf8Size)
      refine ⟨c :: front, rest, rfl, ?_, fun d hd => ?_⟩
      · rw [bytes_cons]
        omega
      · have hlt := hfull d hd
        rw [bytes_cons]
        omega
    · refine ⟨[], c :: text, rfl, Nat.zero_le _, fun d hd => ?_⟩
      rw [List.head?_cons, Option.mem_some_iff] at hd
      rw [← hd, bytes_nil]
      omega

/-- The size of a front cuts the text behind the front. -/
theorem cutAt_bytes (front rest : Text) : (front ++ rest).CutAt (bytes front) front rest :=
  ⟨rfl, Nat.le_refl _, fun c _ => Nat.lt_add_of_pos_right c.utf8Size_pos⟩

/-- A character starts at an offset, or the text ends there, exactly when as many characters as fit
take all the bytes. -/
theorem isBoundary_iff (text : Text) (offset : Nat) :
    text.IsBoundary offset ↔ bytes (text.take (fitLength offset text)) = offset := by
  constructor
  · rintro ⟨front, ⟨rest, rfl⟩, rfl⟩
    rw [fitLength_append, List.take_left]
  · intro h
    exact ⟨_, List.take_prefix _ _, h⟩

instance (text : Text) : DecidablePred text.IsBoundary := fun offset =>
  decidable_of_iff _ (isBoundary_iff text offset).symm

/-- An offset moved back to the end of the text when it lies behind it, and then on to the nearest
offset at which a character starts or the text ends. -/
def floor (text : Text) (offset : Nat) : Nat :=
  Nat.findGreatest text.IsBoundary (min offset (bytes text))

/-- An offset is moved back to the size of what is in front of its cut. -/
theorem CutAt.floor_eq {text : Text} {offset : Nat} {front rest : Text}
    (h : text.CutAt offset front rest) : text.floor offset = bytes front := by
  obtain ⟨rfl, hfits, hfull⟩ := h
  have hfront : front <+: front ++ rest := List.prefix_append front rest
  rw [floor, Nat.findGreatest_eq_iff]
  refine ⟨?_, fun _ => ⟨front, hfront, rfl⟩, ?_⟩
  · rw [bytes_append]
    omega
  · rintro - hlt hle ⟨longer, hlonger, rfl⟩
    -- a longer front takes at least the next character, which does not fit
    obtain ⟨c, more, rfl⟩ := exists_of_bytes_lt hfront hlonger hlt
    obtain ⟨behind, rfl⟩ := (List.prefix_append_right_inj front).mp hlonger
    have hc := hfull c rfl
    rw [bytes_append, bytes_cons] at hle
    omega

/-- The moved offset is a boundary. -/
theorem isBoundary_floor (text : Text) (offset : Nat) : text.IsBoundary (text.floor offset) := by
  obtain ⟨front, rest, hcut⟩ := exists_cutAt text offset
  rw [hcut.floor_eq, hcut.whole]
  exact ⟨front, List.prefix_append _ _, rfl⟩

/-- Moving keeps the order of offsets. -/
theorem floor_mono (text : Text) : Monotone text.floor := by
  intro first last h
  have hmin : min first (bytes text) ≤ min last (bytes text) := by
    omega
  exact Nat.findGreatest_mono_right _ hmin

/-- What is in front of the cut is the slice up to the moved offset. -/
theorem CutAt.slice_eq {text : Text} {offset : Nat} {front rest : Text}
    (h : text.CutAt offset front rest) : text.slice 0 (text.floor offset) = front := by
  have hslice := slice_append [] front rest
  rw [bytes_nil, Nat.zero_add, List.nil_append, ← h.whole, ← h.floor_eq] at hslice
  exact hslice

/-- The slice between two offsets, refused when they are reversed or one of them is inside a
character or behind the text. -/
def slice? (start stop : Nat) (text : Text) : Option Text :=
  if start ≤ stop ∧ text.IsBoundary start ∧ text.IsBoundary stop then some (text.slice start stop)
  else none

/-- A piece of a text is sliced between the bytes in front of it and those up to its end. -/
theorem slice?_append (front piece rest : Text) :
    slice? (bytes front) (bytes front + bytes piece) (front ++ (piece ++ rest)) = some piece := by
  have hstop : (front ++ (piece ++ rest)).IsBoundary (bytes front + bytes piece) := by
    rw [← bytes_append, ← List.append_assoc]
    exact ⟨front ++ piece, List.prefix_append _ _, rfl⟩
  rw [slice?, if_pos ⟨Nat.le_add_right _ _, ⟨front, List.prefix_append _ _, rfl⟩, hstop⟩,
    slice_append]

/-- A slice takes the bytes between its offsets. -/
theorem add_bytes_of_slice? {start stop : Nat} {text piece : Text}
    (h : text.slice? start stop = some piece) : start + bytes piece = stop := by
  rw [slice?] at h
  split at h
  · next hbounds =>
    obtain ⟨hle, ⟨front, hfront, rfl⟩, ⟨upTo, ⟨rest, rfl⟩, rfl⟩⟩ := hbounds
    obtain ⟨middle, rfl⟩ : front <+: upTo := by
      by_contra hlonger
      rcases List.prefix_or_prefix_of_prefix hfront (List.prefix_append upTo rest) with h | h
      · exact hlonger h
      · obtain ⟨more, rfl⟩ := h
        have hmore : more ≠ [] := by
          rintro rfl
          rw [List.append_nil] at hlonger
          exact hlonger List.prefix_rfl
        have hpos := bytes_pos hmore
        rw [bytes_append] at hle
        omega
    rw [List.append_assoc, bytes_append, slice_append] at h
    rw [← Option.some.inj h, bytes_append]
  · cases h

end CodeTint.Text
