import CodeTint.Proofs.Source.Offsets
import CodeTint.Source.Lines
import Mathlib.Algebra.GroupWithZero.Nat

/-!
# The line that holds an offset

The lines kept for a source are the pieces between its newlines, each with the bytes of the pieces
in front of it and one more byte for the newline behind each of these. Halving keeps the wanted
line between one that starts at or before the offset and one that does not, and since later lines
start later there is only one line where the first sort ends. Around a cut the text tells directly
which line that is: the pieces in front of it are counted by the newlines in front of the cut.
-/

namespace CodeTint

open Text

namespace Text

/-- The last line of a text has no newline. -/
theorem newline_not_mem_lastLine (text : Text) : '\n' ∉ text.lastLine := by
  rw [lastLine, List.rtakeWhile, List.mem_reverse]
  intro h
  exact absurd (List.mem_takeWhile_imp h) (by decide)

/-- No character of a text without a newline is one. -/
theorem decide_ne_newline {text : Text} (h : '\n' ∉ text) :
    ∀ c ∈ text, decide (c ≠ '\n') = true := by
  intro c hc
  refine decide_eq_true ?_
  rintro rfl
  exact h hc

/-- A text without a newline is its last line. -/
theorem lastLine_of_not_mem {text : Text} (h : '\n' ∉ text) : text.lastLine = text := by
  rw [lastLine, List.rtakeWhile_eq_self_iff]
  exact decide_ne_newline h

/-- A text with a newline has one in front of its last line. -/
theorem exists_newline_lastLine {text : Text} (h : '\n' ∈ text) :
    ∃ before, text = before ++ '\n' :: text.lastLine := by
  have hwhole : text.rdropWhile (· ≠ '\n') ++ text.lastLine = text :=
    List.rdropWhile_append_rtakeWhile
  have hend := List.rdropWhile_last_not (· ≠ '\n') text
  rcases (text.rdropWhile (· ≠ '\n')).eq_nil_or_concat with hnil | ⟨before, last, hconcat⟩
  · rw [hnil, List.nil_append] at hwhole
    have hlast := newline_not_mem_lastLine text
    rw [hwhole] at hlast
    exact absurd h hlast
  · rw [List.concat_eq_append] at hconcat
    simp only [hconcat, List.getLast_append_singleton, decide_eq_true_eq, not_not] at hend
    have hlast : last = '\n' := hend (List.append_ne_nil_of_right_ne_nil _ (List.cons_ne_nil _ _))
    refine ⟨before, ?_⟩
    rw [← hlast, ← List.singleton_append, ← List.append_assoc, ← hconcat, hwhole]

/-- Text without a newline goes on with the last line of what is in front of it. -/
theorem lastLine_append_of_not_mem (front : Text) {more : Text} (h : '\n' ∉ more) :
    (front ++ more).lastLine = front.lastLine ++ more := by
  have hmore : ∀ c ∈ more.reverse, decide (c ≠ '\n') = true := fun c hc =>
    decide_ne_newline h c (List.mem_reverse.mp hc)
  rw [lastLine, lastLine, List.rtakeWhile, List.rtakeWhile, List.reverse_append,
    List.takeWhile_append_of_pos hmore, List.reverse_append, List.reverse_reverse]

/-- The number of pieces is one more than that of the marks between them. -/
theorem length_splitOn (mark : Char) (text : Text) :
    (text.splitOn mark).length = text.count mark + 1 := by
  induction text with
  | nil => rfl
  | cons c text ih =>
    rw [List.splitOn_cons_eq_if_modifyHead, List.count_cons]
    split <;> simp [ih]

/-- The bytes of the pieces, with one for the newline behind each of them, are those of the text
with one newline more. -/
theorem sum_bytes_splitOn (text : Text) :
    ((text.splitOn '\n').map (bytes · + 1)).sum = bytes text + 1 := by
  induction text with
  | nil => rfl
  | cons c text ih =>
    rw [List.splitOn_cons_eq_if_modifyHead]
    cases hpieces : text.splitOn '\n' with
    | nil => exact absurd hpieces (List.splitOn_ne_nil _ _)
    | cons piece pieces =>
      rw [hpieces, List.map_cons, List.sum_cons] at ih
      split
      · next hc =>
        have hsize : c.utf8Size = 1 := by
          rw [eq_of_beq hc]
          rfl
        rw [List.map_cons, List.sum_cons, List.map_cons, List.sum_cons, ih, bytes_nil, bytes_cons,
          hsize]
        omega
      · rw [List.modifyHead_cons, List.map_cons, List.sum_cons, bytes_cons, bytes_cons]
        omega

/-- Up to its first newline a text is one piece, and only a newline begins another one. -/
theorem exists_splitOn_append {front : Text} (h : '\n' ∉ front) (rest : Text) :
    ∃ behind, (front ++ rest).splitOn '\n' = (front ++ rest.takeWhile (· ≠ '\n')) :: behind ∧
      ('\n' ∉ rest → behind = []) := by
  by_cases hrest : '\n' ∈ rest
  · obtain ⟨line, behind, rfl, hline⟩ := List.eq_append_cons_of_mem hrest
    have htake : (line ++ '\n' :: behind).takeWhile (· ≠ '\n') = line := by
      rw [List.takeWhile_append_of_pos (decide_ne_newline hline),
        List.takeWhile_cons_of_neg (by simp), List.append_nil]
    have hpiece : '\n' ∉ front ++ line := by
      rw [List.mem_append, not_or]
      exact ⟨h, hline⟩
    rw [htake, ← List.append_assoc, List.splitOn_append_cons_self_of_not_mem hpiece]
    exact ⟨_, rfl, fun hnot => absurd hrest hnot⟩
  · have htake : rest.takeWhile (· ≠ '\n') = rest :=
      List.takeWhile_eq_self_iff.mpr (decide_ne_newline hrest)
    have hpiece : '\n' ∉ front ++ rest := by
      rw [List.mem_append, not_or]
      exact ⟨h, hrest⟩
    rw [htake, List.splitOn_eq_singleton hpiece]
    exact ⟨[], rfl, fun _ => rfl⟩

/-- Around a cut the pieces of a text are those in front, as many as newlines are in front of the
cut, the one that the cut goes through, and those behind it. -/
theorem exists_splitOn_cut (front rest : Text) :
    ∃ before behind, (front ++ rest).splitOn '\n' =
        before ++ (front.lastLine ++ rest.takeWhile (· ≠ '\n')) :: behind ∧
      before.length = front.count '\n' ∧
      (before.map (bytes · + 1)).sum + bytes front.lastLine = bytes front ∧
      ('\n' ∉ rest → behind = []) := by
  by_cases hfront : '\n' ∈ front
  · obtain ⟨before, hbefore⟩ := exists_newline_lastLine hfront
    have hlast := newline_not_mem_lastLine front
    obtain ⟨behind, hsplit, hbehind⟩ := exists_splitOn_append hlast rest
    generalize front.lastLine = last at *
    subst hbefore
    refine ⟨before.splitOn '\n', behind, ?_, ?_, ?_, hbehind⟩
    · rw [List.append_assoc, List.cons_append, List.splitOn_append_cons_self, hsplit]
    · rw [length_splitOn, List.count_append, List.count_cons_self,
        List.count_eq_zero_of_not_mem hlast]
    · have hnewline : bytes ('\n' :: last) = 1 + bytes last := bytes_cons _ _
      rw [sum_bytes_splitOn, bytes_append, hnewline, Nat.add_assoc]
  · obtain ⟨behind, hsplit, hbehind⟩ := exists_splitOn_append hfront rest
    rw [lastLine_of_not_mem hfront]
    refine ⟨[], behind, hsplit, ?_, ?_, hbehind⟩
    · rw [List.count_eq_zero_of_not_mem hfront, List.length_nil]
    · rw [List.map_nil, List.sum_nil, Nat.zero_add]

end Text

namespace Source

/-- The bytes of the first lines of a text with the newline behind each of them. -/
def lineStart (text : Text) (line : Nat) : Nat :=
  (((text.splitOn '\n').take line).map (bytes · + 1)).sum

/-- The pieces of a text are the lists between its newlines. -/
theorem pieces_eq_splitOn (text : Text) : pieces text = text.splitOn '\n' := by
  induction text with
  | nil => rfl
  | cons c text ih =>
    have hpieces : pieces (c :: text) = pushPiece c (pieces text) := rfl
    rw [hpieces, ih, List.splitOn_cons_eq_if_modifyHead]
    cases hsplit : text.splitOn '\n' with
    | nil => exact absurd hsplit (List.splitOn_ne_nil _ _)
    | cons piece rest => simp only [pushPiece, beq_iff_eq, List.modifyHead_cons]

/-- Lines placed one behind the other from an offset on. -/
def placedFrom (start : Nat) : List Text → List Line
  | [] => []
  | text :: texts => ⟨start, text⟩ :: placedFrom (start + bytes text + 1) texts

/-- Placing lines behind others adds them from the next start on. -/
theorem toList_foldl_push (texts : List Text) (placed : Placed) :
    (texts.foldl Placed.push placed).lines.toList =
      placed.lines.toList ++ placedFrom placed.next texts := by
  induction texts generalizing placed with
  | nil => rw [placedFrom, List.append_nil, List.foldl_nil]
  | cons text texts ih =>
    rw [List.foldl_cons, ih, Placed.push, Array.toList_push, List.append_assoc]
    rfl

/-- A placed line starts behind the lines in front of it and their newlines. -/
theorem getElem?_placedFrom (texts : List Text) (start n : Nat) :
    (placedFrom start texts)[n]? =
      texts[n]?.map fun text => ⟨start + ((texts.take n).map (bytes · + 1)).sum, text⟩ := by
  induction texts generalizing start n with
  | nil => rfl
  | cons text texts ih =>
    cases n with
    | zero => rfl
    | succ n =>
      rw [placedFrom, List.getElem?_cons_succ, ih, List.getElem?_cons_succ, List.take_succ_cons,
        List.map_cons, List.sum_cons, Nat.add_assoc start, Nat.add_assoc start]

/-- The lines of a text are its pieces, each at its start. -/
theorem getElem?_lines (text : Text) (n : Nat) :
    (lines text)[n]? = (text.splitOn '\n')[n]?.map fun line => ⟨lineStart text n, line⟩ := by
  rw [← Array.getElem?_toList, lines, toList_foldl_push, pieces_eq_splitOn, List.nil_append,
    getElem?_placedFrom]
  simp only [Nat.zero_add, lineStart]

/-- A line starts where the one in front of it and its newline end. -/
theorem lineStart_succ {text line : Text} {n : Nat} (h : (text.splitOn '\n')[n]? = some line) :
    lineStart text (n + 1) = lineStart text n + bytes line + 1 := by
  rw [lineStart, List.take_add_one, h, Option.toList_some, List.map_append, List.sum_append,
    List.map_singleton, List.sum_singleton, lineStart, Nat.add_assoc]

/-- Later lines do not start earlier. -/
theorem lineStart_mono (text : Text) : Monotone (lineStart text) := by
  refine monotone_nat_of_le_succ fun n => ?_
  rw [lineStart, lineStart, List.take_add_one, List.map_append, List.sum_append]
  exact Nat.le_add_right _ _

/-- A line has the number and starts at or before the offset. -/
def StartsBy (lines : Array Line) (offset n : Nat) : Prop :=
  ∃ line, lines[n]? = some line ∧ line.start ≤ offset

/-- Between a line that starts in time and one that does not, halving finds a line that starts in
time and is followed by none that does. -/
theorem startsBy_search {lines : Array Line} {offset low high : Nat}
    (hlow : StartsBy lines offset low) (hhigh : ¬ StartsBy lines offset high) (hlt : low < high)
    (hsize : high ≤ lines.size) :
    StartsBy lines offset (search lines offset low high) ∧
      ¬ StartsBy lines offset (search lines offset low high + 1) := by
  fun_induction search lines offset low high with
  | case1 low high hle =>
    obtain rfl : high = low + 1 := by omega
    exact ⟨hlow, hhigh⟩
  | case2 low high hle middle hnone =>
    have hmiddle := Array.getElem?_eq_none_iff.mp hnone
    omega
  | case3 low high hle middle line hline hstart ih =>
    exact ih ⟨line, hline, hstart⟩ hhigh (by omega) hsize
  | case4 low high hle middle line hline hstart ih =>
    refine ih hlow ?_ (by omega) (by omega)
    rintro ⟨other, hother, hle⟩
    rw [hline, Option.some.injEq] at hother
    exact hstart (hother ▸ hle)

/-- In front of a line that starts in time are only lines that do. -/
theorem StartsBy.of_le {text : Text} {offset m n : Nat} (h : StartsBy (lines text) offset n)
    (hle : m ≤ n) : StartsBy (lines text) offset m := by
  obtain ⟨line, hline, hstart⟩ := h
  rw [getElem?_lines, Option.map_eq_some_iff] at hline
  obtain ⟨piece, hpiece, rfl⟩ := hline
  obtain ⟨hn, -⟩ := List.getElem?_eq_some_iff.mp hpiece
  have hm : m < (text.splitOn '\n').length := Nat.lt_of_le_of_lt hle hn
  refine ⟨⟨lineStart text m, (text.splitOn '\n')[m]⟩, ?_, (lineStart_mono text hle).trans hstart⟩
  rw [getElem?_lines, List.getElem?_eq_getElem hm, Option.map_some]

/-- Only one line starts in time and is followed by none that does. -/
theorem StartsBy.unique {text : Text} {offset m n : Nat} (hm : StartsBy (lines text) offset m)
    (hm' : ¬ StartsBy (lines text) offset (m + 1)) (hn : StartsBy (lines text) offset n)
    (hn' : ¬ StartsBy (lines text) offset (n + 1)) : m = n := by
  rcases Nat.lt_trichotomy m n with hlt | heq | hlt
  · exact absurd (hn.of_le hlt) hm'
  · exact heq
  · exact absurd (hm.of_le hlt) hn'

/-- The first line starts in time for every offset. -/
theorem startsBy_zero (text : Text) (offset : Nat) : StartsBy (lines text) offset 0 := by
  have hlength := length_splitOn '\n' text
  have hpos : 0 < (text.splitOn '\n').length := by omega
  refine ⟨⟨0, (text.splitOn '\n')[0]⟩, ?_, Nat.zero_le offset⟩
  rw [getElem?_lines, List.getElem?_eq_getElem hpos]
  rfl

/-- The line whose number is found starts in time, and no line behind it does. -/
theorem startsBy_lineNumber (text : Text) (offset : Nat) :
    StartsBy (lines text) offset (lineNumber (lines text) offset) ∧
      ¬ StartsBy (lines text) offset (lineNumber (lines text) offset + 1) := by
  have hzero := startsBy_zero text offset
  have hsize : 0 < (lines text).size := by
    obtain ⟨line, hline, -⟩ := hzero
    exact (Array.getElem?_eq_some_iff.mp hline).1
  refine startsBy_search hzero ?_ hsize (Nat.le_refl _)
  rintro ⟨line, hline, -⟩
  exact absurd (Array.getElem?_eq_some_iff.mp hline).1 (Nat.lt_irrefl _)

section Cut

variable (front rest : Text)

/-- The line that a cut goes through is counted by the newlines in front of the cut. -/
theorem getElem?_splitOn_cut :
    ((front ++ rest).splitOn '\n')[front.count '\n']? =
      some (front.lastLine ++ rest.takeWhile (· ≠ '\n')) := by
  obtain ⟨before, behind, hsplit, hlength, -, -⟩ := exists_splitOn_cut front rest
  rw [hsplit, ← hlength, List.getElem?_append_right (Nat.le_refl _), Nat.sub_self,
    List.getElem?_cons_zero]

/-- The last line in front of a cut starts where the line does that the cut goes through. -/
theorem lineStart_cut :
    lineStart (front ++ rest) (front.count '\n') + bytes front.lastLine = bytes front := by
  obtain ⟨before, behind, hsplit, hlength, hsum, -⟩ := exists_splitOn_cut front rest
  rw [lineStart, hsplit, ← hlength, List.take_left, hsum]

/-- A line behind the one that a cut goes through is behind a newline. -/
theorem newline_mem_of_next {line : Text}
    (h : ((front ++ rest).splitOn '\n')[front.count '\n' + 1]? = some line) : '\n' ∈ rest := by
  obtain ⟨before, behind, hsplit, hlength, -, hbehind⟩ := exists_splitOn_cut front rest
  by_contra hnot
  rw [hsplit, hbehind hnot, ← hlength] at h
  obtain ⟨hlt, -⟩ := List.getElem?_eq_some_iff.mp h
  rw [List.length_append, List.length_singleton] at hlt
  exact Nat.lt_irrefl _ hlt

end Cut

variable {text : Text} {offset : Nat} {front rest : Text}

/-- The line found for an offset is the one that its cut goes through. -/
theorem lineNumber_of_cutAt (h : text.CutAt offset front rest) :
    lineNumber (lines text) offset = front.count '\n' := by
  obtain ⟨rfl, hfits, hfull⟩ := h
  have hline := getElem?_splitOn_cut front rest
  have hstart := lineStart_cut front rest
  obtain ⟨hfound, hfound'⟩ := startsBy_lineNumber (front ++ rest) offset
  refine hfound.unique hfound' ⟨_, (getElem?_lines _ _).trans (congrArg _ hline), ?_⟩ ?_
  · change lineStart (front ++ rest) (front.count '\n') ≤ offset
    omega
  · -- the next line starts behind what of the text fits and behind the character that does not
    rintro ⟨next, hnext, hle⟩
    rw [getElem?_lines, Option.map_eq_some_iff] at hnext
    obtain ⟨piece, hpiece, rfl⟩ := hnext
    change lineStart (front ++ rest) (front.count '\n' + 1) ≤ offset at hle
    rw [lineStart_succ hline, bytes_append] at hle
    cases rest with
    | nil => exact absurd (newline_mem_of_next front [] hpiece) List.not_mem_nil
    | cons c rest =>
      have hc := hfull c rfl
      by_cases hnewline : c = '\n'
      · have hsize : c.utf8Size = 1 := by
          rw [hnewline]
          rfl
        omega
      · rw [List.takeWhile_cons, if_pos (decide_eq_true hnewline), bytes_cons] at hle
        omega

/-- The line at an offset goes from the last newline in front of its cut to the next one. -/
theorem lineAt_of_cutAt (h : text.CutAt offset front rest) :
    lineAt (lines text) offset =
      ⟨lineStart text (front.count '\n'), front.lastLine ++ rest.takeWhile (· ≠ '\n')⟩ := by
  rw [lineAt, lineNumber_of_cutAt h, getElem?_lines, h.whole, getElem?_splitOn_cut,
    Option.map_some, Option.getD_some]

/-- An offset is at the line that its cut goes through, behind the characters of that line which
are in front of the cut. -/
theorem locate_of_cutAt (h : text.CutAt offset front rest) :
    locate (lines text) offset = ⟨front.count '\n', front.lastLine.length⟩ := by
  have hstart : lineStart text (front.count '\n') + bytes front.lastLine = bytes front :=
    h.whole ▸ lineStart_cut front rest
  have hcut : CutAt (front.lastLine ++ rest.takeWhile (· ≠ '\n'))
      (offset - lineStart text (front.count '\n')) front.lastLine
      (rest.takeWhile (· ≠ '\n')) := by
    have hfits := h.fits
    refine ⟨rfl, by omega, fun c hc => ?_⟩
    rw [List.head?_takeWhile, Option.mem_def, Option.filter_eq_some_iff] at hc
    have hfull := h.full c hc.1
    omega
  rw [locate, lineAt_of_cutAt h, lineNumber_of_cutAt h]
  exact congrArg (Position.mk (front.count '\n')) hcut.fitLength_eq

end Source

end CodeTint
