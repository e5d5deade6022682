import CodeTint.Proofs.Source.LineIndex
import Mathlib.Data.Prod.Lex

/-!
# Places and offsets

The place found for an offset counts the newlines in front of it and the characters behind the last
of them. Places so follow the order of the offsets, and the offset can be told from its place: it is
as many bytes as the lines in front take with their newlines, and those of the characters in front
of it on its own line.
-/

namespace CodeTint.Source

open Text

/-- A place among all places: by line first, and on one line by column. -/
def Position.rank (position : Position) : ℕ ×ₗ ℕ :=
  toLex (position.line, position.column)

/-- Behind more text a place has a higher rank. -/
theorem rank_lt_of_append (front : Text) (c : Char) (more : Text) :
    (Position.mk (front.count '\n') front.lastLine.length).rank <
      (Position.mk ((front ++ c :: more).count '\n') (front ++ c :: more).lastLine.length).rank := by
  rw [Position.rank, Position.rank, Prod.Lex.toLex_lt_toLex]
  dsimp only
  by_cases hnewline : '\n' ∈ c :: more
  · left
    have hcount := List.count_pos_iff.mpr hnewline
    rw [List.count_append]
    omega
  · right
    rw [List.count_append, List.count_eq_zero_of_not_mem hnewline,
      lastLine_append_of_not_mem front hnewline, List.length_append, List.length_cons]
    omega

/-- An offset has the place of the boundary that it is moved back to. -/
theorem locate_floor (text : Text) (offset : Nat) :
    locate (lines text) (text.floor offset) = locate (lines text) offset := by
  obtain ⟨front, rest, hcut⟩ := exists_cutAt text offset
  have hfloor : text.CutAt (bytes front) front rest := hcut.whole ▸ cutAt_bytes front rest
  rw [hcut.floor_eq, locate_of_cutAt hfloor, locate_of_cutAt hcut]

/-- Later boundaries have places of higher rank. -/
theorem strictMonoOn_locate (text : Text) :
    StrictMonoOn (fun offset => (locate (lines text) offset).rank)
      {offset | text.IsBoundary offset} := by
  rintro - ⟨first, hfirst, rfl⟩ - ⟨last, hlast, rfl⟩ hlt
  obtain ⟨c, more, rfl⟩ := exists_of_bytes_lt hfirst hlast hlt
  obtain ⟨rest, rfl⟩ := hlast
  have hcut : CutAt (first ++ c :: more ++ rest) (bytes first) first (c :: more ++ rest) := by
    rw [List.append_assoc]
    exact cutAt_bytes first _
  dsimp only
  rw [locate_of_cutAt hcut, locate_of_cutAt (cutAt_bytes _ rest)]
  exact rank_lt_of_append first c more

/-- Later offsets do not have places of lower rank. -/
theorem monotone_locate (text : Text) :
    Monotone fun offset => (locate (lines text) offset).rank := by
  intro first last hle
  have hrank := (strictMonoOn_locate text).monotoneOn (isBoundary_floor text first)
    (isBoundary_floor text last) (floor_mono text hle)
  rwa [locate_floor, locate_floor] at hrank

/-- The slices of a text that its line and the front of its line are. -/
theorem slice?_lineAt {text : Text} {offset : Nat} {front rest : Text}
    (h : text.CutAt offset front rest) :
    text.slice? (lineStart text (front.count '\n')) (bytes front) = some front.lastLine ∧
      text.slice? (lineStart text (front.count '\n'))
          (lineStart text (front.count '\n') +
            bytes (front.lastLine ++ rest.takeWhile (· ≠ '\n'))) =
        some (front.lastLine ++ rest.takeWhile (· ≠ '\n')) := by
  obtain ⟨rfl, -, -⟩ := h
  have hstart := lineStart_cut front rest
  obtain ⟨before, hbefore⟩ : front.lastLine <:+ front := List.rtakeWhile_suffix _ _
  have hbytes : bytes before + bytes front.lastLine = bytes front := by
    rw [← bytes_append, hbefore]
  have hbegin : lineStart (front ++ rest) (front.count '\n') = bytes before := by
    omega
  rw [hbegin]
  constructor
  · have hslice := slice?_append before front.lastLine rest
    rwa [hbytes, ← List.append_assoc, hbefore] at hslice
  · have hslice := slice?_append before (front.lastLine ++ rest.takeWhile (· ≠ '\n'))
      (rest.dropWhile (· ≠ '\n'))
    rwa [List.append_assoc, List.takeWhile_append_dropWhile, ← List.append_assoc before, hbefore]
      at hslice

/-- The place of a 32-bit offset in a text of fewer than 2^32 bytes counts the newlines in front of
the offset, moved back to the text and to the start of a character, and the characters behind the
last of these newlines; its line is the piece with that number between the newlines. There always is
such a line, what is sliced for the column and for the line begins and ends at characters, and both
counts fit into 32 bits. -/
theorem place_counts_newlines {text : Text} (hsize : bytes text < UInt32.size) (offset : UInt32) :
    let floor := text.floor offset.toNat
    let place := locate (lines text) offset.toNat
    let line := lineAt (lines text) offset.toNat
    place.line = (text.slice 0 floor).count '\n' ∧
      place.column = (text.slice 0 floor).lastLine.length ∧
      (text.splitOn '\n')[place.line]? = some line.text ∧
      (lines text)[place.line]? = some line ∧
      text.slice? line.start floor = some (line.text.take place.column) ∧
      text.slice? line.start (line.start + bytes line.text) = some line.text ∧
      place.line < UInt32.size ∧ place.column < UInt32.size := by
  obtain ⟨front, rest, hcut⟩ := exists_cutAt text offset.toNat
  have hwhole := hcut.whole
  have hline : (text.splitOn '\n')[front.count '\n']? =
      some (front.lastLine ++ rest.takeWhile (· ≠ '\n')) :=
    hwhole ▸ getElem?_splitOn_cut front rest
  have hfront : front.length ≤ bytes text := by
    have hlength := length_le_bytes front
    rw [hwhole, bytes_append]
    omega
  have hcount : front.count '\n' ≤ front.length := List.count_le_length
  have hlast : front.lastLine.length ≤ front.length :=
    (List.rtakeWhile_suffix _ front).length_le
  obtain ⟨hcolumn, hslice⟩ := slice?_lineAt hcut
  intro floor place line
  have hplace : place = ⟨front.count '\n', front.lastLine.length⟩ := locate_of_cutAt hcut
  have hat : line = ⟨lineStart text (front.count '\n'),
      front.lastLine ++ rest.takeWhile (· ≠ '\n')⟩ := lineAt_of_cutAt hcut
  have hfloor : floor = bytes front := hcut.floor_eq
  have hbefore : text.slice 0 floor = front := hcut.slice_eq
  rw [hbefore, hplace, hat, hfloor]
  refine ⟨rfl, rfl, hline, ?_, ?_, hslice, ?_, ?_⟩
  · rw [getElem?_lines, hline, Option.map_some]
  · rw [hcolumn, List.take_left]
  · exact Nat.lt_of_le_of_lt (hcount.trans hfront) hsize
  · exact Nat.lt_of_le_of_lt (hlast.trans hfront) hsize

/-- An offset inside a character of three bytes behind a newline. -/
theorem place_counts_newlines_inside :
    bytes "\u00e9\n\u4e2dx\n".toList < UInt32.size ∧
      floor "\u00e9\n\u4e2dx\n".toList 5 = 3 ∧
      (locate (lines "\u00e9\n\u4e2dx\n".toList) 5).line = "\u00e9\n".toList.count '\n' ∧
      (locate (lines "\u00e9\n\u4e2dx\n".toList) 5).column = (lastLine "\u00e9\n".toList).length ∧
      slice? 3 7 "\u00e9\n\u4e2dx\n".toList = some "\u4e2dx".toList := by
  have hsize : bytes "\u00e9\n\u4e2dx\n".toList < UInt32.size := by
    decide
  have hfloor : floor "\u00e9\n\u4e2dx\n".toList 5 = 3 := by
    decide
  have hslice : slice 0 3 "\u00e9\n\u4e2dx\n".toList = "\u00e9\n".toList := by
    decide
  have hat : lineAt (lines "\u00e9\n\u4e2dx\n".toList) 5 = ⟨3, "\u4e2dx".toList⟩ := by
    decide +kernel
  obtain ⟨hline, hcolumn, -, -, -, htext, -⟩ := place_counts_newlines hsize 5
  change _ = (slice 0 (floor _ 5) _).count '\n' at hline
  change _ = (slice 0 (floor _ 5) _).lastLine.length at hcolumn
  change slice? (lineAt _ 5).start ((lineAt _ 5).start + bytes (lineAt _ 5).text) _ =
    some (lineAt _ 5).text at htext
  rw [hfloor, hslice] at hline hcolumn
  rw [hat] at htext
  exact ⟨hsize, hfloor, hline, hcolumn, htext⟩

/-- Places follow the order of offsets, strictly where characters start and at the end of the text.
From the place of an offset the offset, moved back to the text and to the start of a character, is
found again: the bytes of the lines in front, one more for the newline behind each of them, and the
bytes of as many characters of the line as the column says, which the line has. -/
theorem place_determines_offset (text : Text) :
    StrictMonoOn (fun offset => (locate (lines text) offset).rank)
        {offset | text.IsBoundary offset} ∧
      (Monotone fun offset => (locate (lines text) offset).rank) ∧
      ∀ offset,
        let place := locate (lines text) offset
        let line := lineAt (lines text) offset
        place.column ≤ line.text.length ∧
          text.floor offset =
            (((text.splitOn '\n').take place.line).map (bytes · + 1)).sum +
              bytes (line.text.take place.column) := by
  refine ⟨strictMonoOn_locate text, monotone_locate text, fun offset => ?_⟩
  obtain ⟨front, rest, hcut⟩ := exists_cutAt text offset
  have hstart : lineStart text (front.count '\n') + bytes front.lastLine = bytes front :=
    hcut.whole ▸ lineStart_cut front rest
  dsimp only
  rw [locate_of_cutAt hcut, lineAt_of_cutAt hcut, hcut.floor_eq]
  constructor
  · rw [List.length_append]
    exact Nat.le_add_right _ _
  · rw [List.take_left]
    exact hstart.symm

/-- Two boundaries on different lines, and an offset behind the end. -/
theorem place_determines_offset_behind :
    IsBoundary "\u00e9\n\u4e2dx\n".toList 2 ∧ IsBoundary "\u00e9\n\u4e2dx\n".toList 3 ∧
      (locate (lines "\u00e9\n\u4e2dx\n".toList) 2).rank <
        (locate (lines "\u00e9\n\u4e2dx\n".toList) 3).rank ∧
      floor "\u00e9\n\u4e2dx\n".toList 100 = (2 + 1) + (4 + 1) := by
  have hboundary : IsBoundary "\u00e9\n\u4e2dx\n".toList 2 ∧
      IsBoundary "\u00e9\n\u4e2dx\n".toList 3 := by
    decide
  have hplace : locate (lines "\u00e9\n\u4e2dx\n".toList) 100 = ⟨2, 0⟩ := by
    decide +kernel
  obtain ⟨hstrict, -, hback⟩ := place_determines_offset "\u00e9\n\u4e2dx\n".toList
  have hsum := (hback 100).2
  rw [hplace] at hsum
  exact ⟨hboundary.1, hboundary.2, hstrict hboundary.1 hboundary.2 (by decide), hsum⟩

end CodeTint.Source
