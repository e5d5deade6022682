import CodeTint.Proofs.Framing
import CodeTint.Proofs.Source.Places
import CodeTint.Proofs.Standalone
import CodeTint.Source.Report

/-!
# What the caret of a report points at

The last two lines of a report are a line of the source and a line that ends in a caret, both in the
same margin. Directly above the caret is the character at which the place begins, and where a
newline or the end of the text is at the place, the caret is one behind the line. A warning of the
scanner is about a token at the start of a character, and its caret is under the first character of
the delimiter that opens the construct.

Line and column in the header are words of 32 bits. Below 2^32 bytes they are the right ones but for
the end of a text of 2^32 - 1 characters that is a single line, or newlines only.
-/

namespace CodeTint

open Text

/-- The character that starts at an offset, none at the end of the text. -/
def Text.charAt? (offset : Nat) (text : Text) : Option Char :=
  (text.slice offset (bytes text)).head?

/-- The character behind a cut starts at the moved offset. -/
theorem Text.CutAt.charAt?_eq {text : Text} {offset : Nat} {front rest : Text}
    (h : text.CutAt offset front rest) : text.charAt? (text.floor offset) = rest.head? := by
  have hslice := slice_append front rest []
  rw [List.append_nil, ← bytes_append, ← h.whole, ← h.floor_eq] at hslice
  rw [charAt?, hslice]

/-- The number of lines in front of an offset. -/
def Text.linesBefore (offset : Nat) (text : Text) : Nat :=
  (text.slice 0 offset).count '\n'

/-- The number of characters in front of an offset on its line. -/
def Text.columnsBefore (offset : Nat) (text : Text) : Nat :=
  (text.slice 0 offset).lastLine.length

/-- What is in front of a cut has as many lines as there are newlines in it. -/
theorem Text.CutAt.linesBefore_eq {text : Text} {offset : Nat} {front rest : Text}
    (h : text.CutAt offset front rest) :
    text.linesBefore (text.floor offset) = front.count '\n' := by
  rw [linesBefore, h.slice_eq]

/-- The characters in front of a cut on its line are those of the last line in front of it. -/
theorem Text.CutAt.columnsBefore_eq {text : Text} {offset : Nat} {front rest : Text}
    (h : text.CutAt offset front rest) :
    text.columnsBefore (text.floor offset) = front.lastLine.length := by
  rw [columnsBefore, h.slice_eq]

namespace Token

/-- An open token begins with a delimiter that opens a construct of its kind. -/
theorem exists_opener_of_open {attributes : Bool} {text : Text} {token : Token}
    (htoken : token ∈ lex attributes text) (hopen : token.closed = false) :
    ∃ opener ∈ token.kind.openers, opener <+: token.text := by
  obtain ⟨front, rest, -, -, rfl⟩ := exists_next_of_mem_scan htoken
  obtain ⟨rule, extent, hextent, hopen', hkind, -⟩ := exists_rule_of_open_next hopen
  have hends := Scan.Rule.endsWithText_of_open hextent hopen'
  have hsame : rule.openers = (rule.kindOf rest).openers := by
    cases rule <;> cases hends <;> rfl
  rw [hkind, text_next_of_open hopen, ← hsame]
  exact Scan.Rule.exists_opener hextent (Scan.Rule.openers_ne_nil hends)

end Token

namespace Source

/-- A report about an offset: a header with a line and a column, the line of the offset, and a
caret. -/
structure CaretAt (file : File) (diagnostic : Diagnostic) (offset line column : Nat)
    (upper lower : Text) : Prop where
  /-- The header shows the line and the column, and two lines stand below it. -/
  report_eq : report file diagnostic =
    severityLabel diagnostic ++ [':'] ++ Text.digits line ++ [':'] ++ Text.digits column ++
      ": ".toList ++ messageLabel file diagnostic ++ '\n' :: (upper ++ '\n' :: lower)
  /-- The upper of them is the line of the offset behind the margin. -/
  upper_eq : ∃ shown, (file.text.splitOn '\n')[file.text.linesBefore offset]? = some shown ∧
    upper = "  | ".toList ++ shown
  /-- The lower one is a caret behind the margin and a space for each character in front of the
  offset on its line. -/
  lower_eq : lower =
    "  | ".toList ++ List.replicate (file.text.columnsBefore offset) ' ' ++ ['^']
  /-- A character that starts at the offset and is no newline is directly above the caret. -/
  above : ∀ c, file.text.charAt? offset = some c → c ≠ '\n' → upper[lower.length - 1]? = some c
  /-- At a newline and at the end of the text the caret is one behind the line. -/
  behind : file.text.charAt? offset = some '\n' ∨ offset = bytes file.text →
    lower.length - 1 = upper.length

/-- The report shows the line and the column counted from one. -/
def ShowsPlace (file : File) (diagnostic : Diagnostic) (offset : Nat) (upper lower : Text) : Prop :=
  CaretAt file diagnostic offset (file.text.linesBefore offset + 1)
    (file.text.columnsBefore offset + 1) upper lower

/-- An offset is at the end of a text of 2^32 - 1 characters that is a single line, or newlines
only. -/
structure Exceptional (text : Text) (offset : Nat) : Prop where
  /-- No text below 2^32 bytes has more characters. -/
  longest : text.length + 1 = UInt32.size
  /-- No character is behind the offset. -/
  atEnd : text.length ≤ offset
  /-- There are newlines only, or none. -/
  uniform : (∀ c ∈ text, c = '\n') ∨ '\n' ∉ text

/-- Above the caret is what follows as many characters as there are spaces in front of it. -/
theorem getElem?_above (front rest : Text) :
    (margin ++ (front ++ rest))[(margin ++ List.replicate front.length ' ' ++ ['^']).length - 1]? =
      rest.head? := by
  have hlength : (margin ++ List.replicate front.length ' ' ++ ['^']).length - 1 =
      (margin ++ front).length := by
    simp only [List.length_append, List.length_replicate, List.length_singleton]
    omega
  rw [hlength, ← List.append_assoc, List.getElem?_append_right (Nat.le_refl _), Nat.sub_self,
    List.head?_eq_getElem?]

/-- A report shows the place at which its span starts, moved back to the text and to the start of a
character, with line and column as words of 32 bits. -/
theorem exists_caretAt (file : File) {diagnostic : Diagnostic} {span : Span}
    (hspan : diagnostic.span = some span) :
    ∃ upper lower,
      CaretAt file diagnostic (file.text.floor span.start.toNat)
        ((file.text.linesBefore (file.text.floor span.start.toNat) + 1) % UInt32.size)
        ((file.text.columnsBefore (file.text.floor span.start.toNat) + 1) % UInt32.size)
        upper lower := by
  obtain ⟨front, rest, hcut⟩ := exists_cutAt file.text span.start.toNat
  have hwhole := hcut.whole
  have hchar := hcut.charAt?_eq
  have habove := getElem?_above front.lastLine (rest.takeWhile (· ≠ '\n'))
  refine ⟨margin ++ (front.lastLine ++ rest.takeWhile (· ≠ '\n')),
    margin ++ List.replicate front.lastLine.length ' ' ++ ['^'], ?_, ?_, ?_, ?_, ?_⟩
  · rw [report, hspan, hcut.linesBefore_eq, hcut.columnsBefore_eq]
    dsimp only
    rw [locate_of_cutAt hcut, lineAt_of_cutAt hcut]
    simp only [positionLabel, toNat_countOn, excerpt, List.append_assoc, List.cons_append,
      List.nil_append]
  · rw [hcut.linesBefore_eq]
    exact ⟨_, hwhole ▸ getElem?_splitOn_cut front rest, rfl⟩
  · rw [hcut.columnsBefore_eq]
    rfl
  · intro c hc hne
    rw [habove, List.head?_takeWhile, ← hchar, hc]
    exact Option.filter_some_pos (decide_eq_true hne)
  · intro hend
    have hnil : rest.takeWhile (· ≠ '\n') = [] := by
      rw [← List.head?_eq_none_iff, List.head?_takeWhile, ← hchar]
      rcases hend with hnewline | hbytes
      · rw [hnewline]
        rfl
      · rw [hcut.floor_eq, hwhole, bytes_append] at hbytes
        cases rest with
        | nil => rw [hchar]; rfl
        | cons c rest =>
          have hpos := bytes_pos (List.cons_ne_nil c rest)
          omega
    rw [hnil]
    simp only [List.length_append, List.length_replicate, List.length_singleton, List.length_nil]
    omega

/-- A report shows one line and one column. -/
theorem CaretAt.unique {file : File} {diagnostic : Diagnostic}
    {offset line column otherLine otherColumn : Nat} {upper lower otherUpper otherLower : Text}
    (h : CaretAt file diagnostic offset line column upper lower)
    (hother : CaretAt file diagnostic offset otherLine otherColumn otherUpper otherLower) :
    line = otherLine ∧ column = otherColumn := by
  have hcolon : ": ".toList = [':', ' '] := rfl
  have hdigit : ':'.isDigit = false := by
    decide
  have hreports := h.report_eq.symm.trans hother.report_eq
  simp only [hcolon, List.append_assoc, List.append_cancel_left_eq, List.cons_append,
    List.nil_append, List.cons.injEq, true_and] at hreports
  obtain ⟨hline, hbehind⟩ := Text.eq_of_digits_append hdigit hreports
  exact ⟨hline, (Text.eq_of_digits_append hdigit hbehind).1⟩

/-- Below 2^32 bytes the lines and the columns in front of an offset fit into words. -/
theorem before_lt {text : Text} (hsize : bytes text < UInt32.size) (offset : Nat) :
    text.linesBefore (text.floor offset) < UInt32.size ∧
      text.columnsBefore (text.floor offset) < UInt32.size := by
  obtain ⟨front, rest, hcut⟩ := exists_cutAt text offset
  have hfront := length_le_bytes front
  have hcount : front.count '\n' ≤ front.length := List.count_le_length
  have hlast : front.lastLine.length ≤ front.length :=
    (List.rtakeWhile_suffix _ front).length_le
  rw [hcut.linesBefore_eq, hcut.columnsBefore_eq]
  rw [hcut.whole, bytes_append] at hsize
  omega

/-- An offset at the end of a text or behind it cuts nothing off. -/
theorem eq_front_of_le {text front rest : Text} {offset : Nat} (hcut : text.CutAt offset front rest)
    (hend : bytes text ≤ offset) : text = front := by
  cases rest with
  | nil => rw [hcut.whole, List.append_nil]
  | cons c rest =>
    have hfull := hcut.full c rfl
    rw [hcut.whole, bytes_append, bytes_cons] at hend
    omega

/-- As many characters as a word can count are the whole of a text below 2^32 bytes. -/
theorem eq_front_of_full {text front rest : Text} (hwhole : text = front ++ rest)
    (hsize : bytes text < UInt32.size) (hfront : UInt32.size ≤ front.length + 1) :
    text = front := by
  have hchars := length_le_bytes text
  have hlength := congrArg List.length hwhole
  rw [List.length_append] at hlength
  have hrest : rest = [] := by
    rw [← List.length_eq_zero_iff]
    omega
  rw [hwhole, hrest, List.append_nil]

/-- The lines or the columns in front of a place are as many as a word can count exactly at the
exceptional places. -/
theorem exceptional_iff {text : Text} (hsize : bytes text < UInt32.size) (offset : Nat) :
    Exceptional text offset ↔
      text.linesBefore (text.floor offset) + 1 = UInt32.size ∨
        text.columnsBefore (text.floor offset) + 1 = UInt32.size := by
  obtain ⟨front, rest, hcut⟩ := exists_cutAt text offset
  have hfits := hcut.fits
  have hchars := length_le_bytes text
  have hfront := length_le_bytes front
  have hcount : front.count '\n' ≤ front.length := List.count_le_length
  have hlast : front.lastLine <:+ front := List.rtakeWhile_suffix _ front
  rw [hcut.linesBefore_eq, hcut.columnsBefore_eq]
  constructor
  · rintro ⟨hlongest, hend, huniform⟩
    -- every character is a single byte, so the offset is behind all of them
    have hall : text = front := eq_front_of_le hcut (by omega)
    rw [← hall]
    rcases huniform with hnewlines | hnone
    · left
      rw [List.count_eq_length.mpr fun c hc => (hnewlines c hc).symm, hlongest]
    · right
      rw [lastLine_of_not_mem hnone, hlongest]
  · intro hfull
    have hlength := hlast.length_le
    have hall : text = front := eq_front_of_full hcut.whole hsize (by omega)
    subst hall
    have hlongest : text.length + 1 = UInt32.size := by
      omega
    refine ⟨hlongest, by omega, ?_⟩
    rcases hfull with hlines | hcolumns
    · left
      have hsame : text.count '\n' = text.length := by
        omega
      exact fun c hc => (List.count_eq_length.mp hsame c hc).symm
    · right
      have hsame : text.lastLine = text := hlast.eq_of_length (by omega)
      rw [← hsame]
      exact newline_not_mem_lastLine text

/-- Below 2^32 bytes the sums of a report fit into words, unless the place is exceptional. -/
theorem sums_fit_iff {text : Text} (hsize : bytes text < UInt32.size) (offset : Nat) :
    (text.linesBefore (text.floor offset) + 1 < UInt32.size ∧
      text.columnsBefore (text.floor offset) + 1 < UInt32.size) ↔ ¬ Exceptional text offset := by
  have hbefore := before_lt hsize offset
  rw [exceptional_iff hsize]
  omega

/-- Below 2^32 bytes a report shows the place at which its span starts, unless it is exceptional. -/
theorem exists_showsPlace_iff {file : File} (hsize : bytes file.text < UInt32.size)
    {diagnostic : Diagnostic} {span : Span} (hspan : diagnostic.span = some span) :
    (∃ upper lower, ShowsPlace file diagnostic (file.text.floor span.start.toNat) upper lower) ↔
      ¬ Exceptional file.text span.start.toNat := by
  obtain ⟨upper, lower, hcaret⟩ := exists_caretAt file hspan
  rw [← sums_fit_iff hsize]
  constructor
  · rintro ⟨otherUpper, otherLower, hshown⟩
    have hpos : 0 < UInt32.size := by
      decide
    obtain ⟨hline, hcolumn⟩ := hcaret.unique hshown
    exact ⟨hline ▸ Nat.mod_lt _ hpos, hcolumn ▸ Nat.mod_lt _ hpos⟩
  · rintro ⟨hline, hcolumn⟩
    rw [Nat.mod_eq_of_lt hline, Nat.mod_eq_of_lt hcolumn] at hcaret
    exact ⟨upper, lower, hcaret⟩

/-- A report about a source of fewer than 2^32 bytes shows the place at which its span starts, with
the caret under the character there, line and column as words of 32 bits. They are counted from one,
and the sums stay within the words, unless the place is exceptional. A warning of the scanner is
about an open token, there is nothing to move, and no such place is exceptional: the caret is under
the first character of the delimiter that opens the token. -/
theorem caret_under_character {file : File} (hsize : bytes file.text < UInt32.size) :
    (∀ diagnostic span, diagnostic.span = some span →
      let offset := file.text.floor span.start.toNat
      (∃ upper lower, CaretAt file diagnostic offset
        ((file.text.linesBefore offset + 1) % UInt32.size)
        ((file.text.columnsBefore offset + 1) % UInt32.size) upper lower) ∧
      ((∃ upper lower, ShowsPlace file diagnostic offset upper lower) ↔
        ¬ Exceptional file.text span.start.toNat) ∧
      ((file.text.linesBefore offset + 1 < UInt32.size ∧
          file.text.columnsBefore offset + 1 < UInt32.size) ↔
        ¬ Exceptional file.text span.start.toNat)) ∧
    ∀ attributes, ∀ diagnostic ∈ Diagnostic.ofTokens (Token.lex attributes file.text),
      ∃ token ∈ Token.lex attributes file.text, token.closed = false ∧
        diagnostic = Diagnostic.unterminated token.kind token.span ∧
        ∃ upper lower, ShowsPlace file diagnostic token.start upper lower ∧
          ∃ c opener, c :: opener ∈ token.kind.openers ∧ c :: opener <+: token.text ∧
            upper[lower.length - 1]? = some c := by
  refine ⟨fun diagnostic span hspan => ⟨exists_caretAt file hspan,
    exists_showsPlace_iff hsize hspan, sums_fit_iff hsize span.start.toNat⟩,
    fun attributes diagnostic hmem => ?_⟩
  obtain ⟨token, htoken, hopen, rfl⟩ := Diagnostic.mem_ofTokens_iff.mp hmem
  obtain ⟨opener, hopener, hbegin⟩ := Token.exists_opener_of_open htoken hopen
  have hletters : ∀ kind ∈ Kind.all, ∀ opener ∈ kind.openers,
      opener.head?.any (· ≠ '\n') = true := by
    decide
  have hletter := hletters token.kind (Kind.mem_all token.kind) opener hopener
  obtain ⟨c, hc, hne⟩ := (Option.any_eq_true _ _).mp hletter
  rw [decide_eq_true_eq] at hne
  obtain ⟨opener, rfl⟩ := List.head?_eq_some_iff.mp hc
  obtain ⟨front, rest, hwhole, -, hnext⟩ := Token.exists_next_of_mem_scan htoken
  have hstart : token.start = bytes front := by
    rw [hnext, Token.start_next, Nat.zero_add]
  have htext : token.text = rest := by
    rw [hnext] at hopen ⊢
    exact Token.text_next_of_open hopen
  have hspan : token.span.start.toNat = token.start := by
    have hbounds := Token.bounds_of_mem_scan htoken
    exact (Span.ofRange_exact (by omega) (by omega)).1
  have hcut : file.text.CutAt token.span.start.toNat front rest := by
    rw [hspan, hstart, hwhole]
    exact cutAt_bytes front rest
  obtain ⟨more, hmore⟩ := hbegin
  have hordinary : ¬ Exceptional file.text token.span.start.toNat := by
    rintro ⟨hlongest, hend, -⟩
    -- the token has characters behind its start
    have hpos : 0 < rest.length := by
      rw [← htext, ← hmore, List.cons_append, List.length_cons]
      omega
    have hrest := length_le_bytes rest
    rw [hspan, hstart] at hend
    rw [hwhole, List.length_append] at hlongest
    rw [hwhole, bytes_append] at hsize
    rw [hwhole, List.length_append] at hend
    omega
  have hplaced : (Diagnostic.unterminated token.kind token.span).span = some token.span := rfl
  obtain ⟨upper, lower, hcaret⟩ := (exists_showsPlace_iff hsize hplaced).mpr hordinary
  have hchar := hcut.charAt?_eq
  rw [hcut.floor_eq, ← hstart] at hcaret hchar
  refine ⟨token, htoken, hopen, rfl, upper, lower, hcaret, c, opener, hopener, ⟨more, hmore⟩, ?_⟩
  refine hcaret.above c ?_ hne
  rw [hchar, ← htext, ← hmore]
  rfl

/-- A comment that never closes behind characters of several bytes, and a place inside one of
them. -/
theorem caret_under_character_wide :
    bytes "\u00e9;\n \u4e2d /* a\nb".toList < UInt32.size ∧
      (∃ upper lower, ShowsPlace ⟨"w.cpp", "\u00e9;\n \u4e2d /* a\nb".toList⟩
          (.warning "Wide" (some ⟨6, 7⟩)) 5 upper lower ∧
        upper[lower.length - 1]? = some '\u4e2d') ∧
      .unterminated .blockComment ⟨9, 15⟩ ∈
        Diagnostic.ofTokens (Token.lex true "\u00e9;\n \u4e2d /* a\nb".toList) ∧
      ∃ upper lower, ShowsPlace ⟨"w.cpp", "\u00e9;\n \u4e2d /* a\nb".toList⟩
          (.unterminated .blockComment ⟨9, 15⟩) 9 upper lower ∧
        upper[lower.length - 1]? = some '/' := by
  have hsize : bytes (File.mk "w.cpp" "\u00e9;\n \u4e2d /* a\nb".toList).text < UInt32.size := by
    decide
  have hmem : .unterminated .blockComment ⟨9, 15⟩ ∈
      Diagnostic.ofTokens (Token.lex true "\u00e9;\n \u4e2d /* a\nb".toList) := by
    decide +kernel
  have hopen : ∀ token ∈ Token.lex true "\u00e9;\n \u4e2d /* a\nb".toList,
      token.closed = false → token.start = 9 ∧ token.kind = .blockComment := by
    decide +kernel
  have hfloor : floor "\u00e9;\n \u4e2d /* a\nb".toList 6 = 5 := by
    decide
  have hordinary : ¬ Exceptional "\u00e9;\n \u4e2d /* a\nb".toList 6 := by
    rintro ⟨hlongest, -, -⟩
    exact absurd hlongest (by decide)
  obtain ⟨hplace, hlex⟩ := caret_under_character hsize
  refine ⟨hsize, ?_, hmem, ?_⟩
  · obtain ⟨upper, lower, hcaret⟩ :=
      (hplace (.warning "Wide" (some ⟨6, 7⟩)) _ rfl).2.1.mpr hordinary
    change ShowsPlace _ _ (floor _ 6) upper lower at hcaret
    rw [hfloor] at hcaret
    exact ⟨upper, lower, hcaret, hcaret.above _ (by decide) (by decide)⟩
  · obtain ⟨token, htoken, hclosed, -, upper, lower, hcaret, c, opener, hopener, -, habove⟩ :=
      hlex true _ hmem
    obtain ⟨hstart, hkind⟩ := hopen token htoken hclosed
    rw [hkind, Kind.openers, List.mem_singleton, List.cons.injEq] at hopener
    rw [hstart] at hcaret
    exact ⟨upper, lower, hcaret, hopener.1 ▸ habove⟩

/-- A single line of as many letters as a word can count is shown at its end with the line 1 and
the column 0. -/
theorem caretAt_letters {n : Nat} (hn : n + 1 = UInt32.size) {file : File}
    (hfile : file.text = List.replicate n 'a') {diagnostic : Diagnostic} {span : Span}
    (hspan : diagnostic.span = some span) (hstart : span.start.toNat = n) :
    bytes file.text = n ∧ file.text.floor n = n ∧ file.text.linesBefore n = 0 ∧
      file.text.columnsBefore n = n ∧ (∃ upper lower, CaretAt file diagnostic n 1 0 upper lower) ∧
      ¬ ∃ upper lower, ShowsPlace file diagnostic n upper lower := by
  have hbytes : bytes file.text = n := by
    rw [hfile, bytes_replicate]
    exact Nat.mul_one n
  have hnone : '\n' ∉ file.text := by
    rw [hfile, List.mem_replicate]
    rintro ⟨-, h⟩
    exact absurd h (by decide)
  have hcut : file.text.CutAt n file.text [] := by
    have hwhole := cutAt_bytes file.text []
    rwa [List.append_nil, hbytes] at hwhole
  have hfloor : file.text.floor n = n := hcut.floor_eq.trans hbytes
  have hlines := hcut.linesBefore_eq
  have hcolumns := hcut.columnsBefore_eq
  rw [hfloor, List.count_eq_zero.mpr hnone] at hlines
  rw [hfloor, lastLine_of_not_mem hnone, hfile, List.length_replicate, ← hfile] at hcolumns
  have hcaret := exists_caretAt file hspan
  rw [hstart, hfloor, hlines, hcolumns, hn, Nat.mod_self] at hcaret
  refine ⟨hbytes, hfloor, hlines, hcolumns, hcaret, ?_⟩
  rintro ⟨otherUpper, otherLower, hshown⟩
  obtain ⟨upper, lower, hcaret⟩ := hcaret
  have hsame := (hcaret.unique hshown).2
  rw [hcolumns, hn] at hsame
  exact absurd hsame (by decide)

/-- A report about the end of 4294967295 letters shows the column 0, and not the one that is counted
from one. -/
theorem caret_miscounted :
    let file : File := ⟨"long.cpp", List.replicate 4294967295 'a'⟩
    let diagnostic := Diagnostic.warning "Long" (some ⟨4294967295, 4294967295⟩)
    bytes file.text < UInt32.size ∧ file.text.floor 4294967295 = 4294967295 ∧
      file.text.linesBefore 4294967295 = 0 ∧ file.text.columnsBefore 4294967295 = 4294967295 ∧
      (∃ upper lower, CaretAt file diagnostic 4294967295 1 0 upper lower) ∧
      ¬ ∃ upper lower, ShowsPlace file diagnostic 4294967295 upper lower := by
  intro file diagnostic
  have hn : 4294967295 + 1 = UInt32.size := rfl
  have hspan : diagnostic.span = some ⟨4294967295, 4294967295⟩ := rfl
  have hfile : file.text = List.replicate 4294967295 'a' := rfl
  obtain ⟨hbytes, hplace⟩ := caretAt_letters hn hfile hspan rfl
  refine ⟨?_, hplace⟩
  rw [hbytes]
  decide

end Source

end CodeTint
