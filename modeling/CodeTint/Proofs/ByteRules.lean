import CodeTint.Proofs.AttributeGrammar
import CodeTint.Proofs.Borders
import CodeTint.Proofs.ByteSearch
import CodeTint.Proofs.Numerals
import CodeTint.Proofs.Partition

/-!
# The rules on the UTF-8 form

A rule can look at the bytes of a text instead of its characters. Openers, closing delimiters and
newlines are searched in the bytes, brackets and escapes are followed byte by byte, runs of
characters are listed with the number of bytes in front of each, and a number is whatever its
pattern matches first. Each rule then answers as it does on the characters, with all lengths counted
in bytes. Only the number of open attributes is kept in 32 bits, which is enough as long as the text
has fewer than 2^32 bytes.
-/

namespace CodeTint

open Text

/-- The characters of a text, each with the number of bytes in front of it. -/
def Text.placed (start : Nat) : Text → List (Nat × Char)
  | [] => []
  | c :: rest => (start, c) :: placed (start + c.utf8Size) rest

/-- Number of bytes in front of the first of some placed characters that is outside a class, or else
the size of the text. -/
def Text.stopAmong (isPart : Char → Bool) (placed : List (Nat × Char)) (size : Nat) : Nat :=
  ((placed.find? fun entry => !isPart entry.2).map Prod.fst).getD size

/-- The run of a class ends in front of the first character outside of it. -/
theorem Text.stopAmong_placed (isPart : Char → Bool) (start : Nat) (text : Text) :
    stopAmong isPart (placed start text) (start + bytes text) =
      start + bytes (text.take (runLength isPart text)) := by
  induction text generalizing start with
  | nil => rfl
  | cons c text ih =>
    cases hc : isPart c with
    | false =>
      have hfind : stopAmong isPart (placed start (c :: text)) (start + bytes (c :: text)) = start := by
        simp [stopAmong, placed, hc]
      have hrun : runLength isPart (c :: text) = 0 := by
        simp [runLength, hc]
      rw [hfind, hrun]
      rfl
    | true =>
      have hfind : stopAmong isPart (placed start (c :: text)) (start + bytes (c :: text)) =
          stopAmong isPart (placed (start + c.utf8Size) text)
            (start + c.utf8Size + bytes text) := by
        simp [stopAmong, placed, hc, Nat.add_assoc]
      have hrun : runLength isPart (c :: text) = runLength isPart text + 1 := by
        simp [runLength, hc]
      rw [hfind, ih, hrun, List.take_succ_cons, bytes_cons, Nat.add_assoc]

/-- Behind an occurrence there are as many more bytes as the pattern has. -/
theorem Text.bytes_take_of_indexOf? {pattern body : Text} {index : Nat} (front : Text)
    (h : indexOf? pattern body = some index) :
    bytes ((front ++ body).take (front.length + index)) + bytes pattern =
      bytes ((front ++ body).take (front.length + index + pattern.length)) := by
  obtain ⟨passed, back, rfl, rfl, -⟩ := first_of_indexFrom? h
  have hshort : (front ++ (passed ++ (pattern ++ back))).take (front.length + (0 + passed.length)) =
      front ++ passed := by
    rw [Nat.zero_add, List.take_length_add_append, List.take_left]
  have hlong : (front ++ (passed ++ (pattern ++ back))).take
      (front.length + (0 + passed.length) + pattern.length) = front ++ (passed ++ pattern) := by
    rw [Nat.zero_add, Nat.add_assoc, List.take_length_add_append, List.take_length_add_append,
      List.take_left]
  rw [hshort, hlong, ← bytes_append, List.append_assoc]

/-- At least one character has at least one byte. -/
theorem Text.bytes_take_pos {length : Nat} {text : Text} (hpos : 0 < length)
    (hle : length ≤ text.length) : 0 < bytes (text.take length) := by
  refine bytes_pos (List.length_pos_iff.mp ?_)
  rwa [List.length_take_of_le hle]

namespace Scan

/-- What a scanner finds that answers exactly behind some bytes. -/
def behindOpener? (opener : List UInt8) (reach : List UInt8 → Extent) (utf8 : List UInt8) :
    Option Extent :=
  if opener.isPrefixOf utf8 then some (reach utf8) else none

/-- A scanner that answers behind a pair of characters answers behind their bytes. -/
theorem AnswersBehind.behindOpener?_eq {a b : Char} {scan? : Text → Option Extent}
    {reach : Text → Extent} (hscan : AnswersBehind a b scan? reach)
    (byteReach : List UInt8 → Extent) (text : Text) :
    behindOpener? (utf8 [a, b]) byteReach (utf8 text) =
      (scan? text).map fun _ => byteReach (utf8 text) := by
  rw [behindOpener?]
  by_cases hbegin : [a, b] <+: text
  · obtain ⟨body, rfl⟩ := hbegin
    have hanswer : scan? ([a, b] ++ body) = some (reach body) := hscan.answers body
    rw [if_pos (List.isPrefixOf_iff_prefix.mpr (utf8_prefix_iff.mpr ⟨body, rfl⟩)), hanswer,
      Option.map_some]
  · have hno := mt utf8_prefix_iff.mp hbegin
    have hdeclined := hscan.declines text fun body hbody => hbegin ⟨body, hbody.symm⟩
    rw [if_neg (mt List.isPrefixOf_iff_prefix.mp hno), hdeclined, Option.map_none]

/-- It reaches as far in the bytes when that is so behind the pair. -/
theorem AnswersBehind.behindOpener?_inBytes {a b : Char} {scan? : Text → Option Extent}
    {reach : Text → Extent} (hscan : AnswersBehind a b scan? reach)
    {byteReach : List UInt8 → Extent} {text : Text}
    (hreach : ∀ body, text = a :: b :: body →
      byteReach (utf8 text) = (reach body).inBytes text) :
    behindOpener? (utf8 [a, b]) byteReach (utf8 text) = (scan? text).map (·.inBytes text) := by
  rw [hscan.behindOpener?_eq]
  refine Option.map_congr fun extent hextent => ?_
  obtain ⟨body, rfl⟩ := hscan.pair_prefix hextent
  have hanswer : scan? ([a, b] ++ body) = some (reach body) := hscan.answers body
  rw [hanswer] at hextent
  rw [hreach body rfl, Option.some.inj hextent]

/-! ### Runs of characters -/

/-- Reach in bytes of the run of whitespace that starts the text. -/
def Space.scanBytes? (text : Text) : Option Extent :=
  let length := stopAmong isSpace (placed 0 text) (bytes text)
  if 0 < length then some (.ended length) else none

/-- A run of whitespace is found by its bytes. -/
theorem Space.scanBytes?_eq (text : Text) :
    scanBytes? text = (scan? text).map (·.inBytes text) := by
  have hstop := stopAmong_placed isSpace 0 text
  rw [Nat.zero_add, Nat.zero_add] at hstop
  rw [scanBytes?, hstop, scan?]
  by_cases hrun : 0 < runLength isSpace text
  · rw [if_pos hrun, if_pos (bytes_take_pos hrun (runLength_le isSpace text))]
    rfl
  · rw [if_neg hrun, Nat.eq_zero_of_not_pos hrun]
    rfl

/-- Reach in bytes of the word that starts the text. -/
def Word.scanBytes? (text : Text) : Option Extent :=
  if text.head?.any isWordStart then
    some (.ended (stopAmong isWordPart ((placed 0 text).drop 1) (bytes text)))
  else none

/-- A word is found by its bytes. -/
theorem Word.scanBytes?_eq (text : Text) :
    scanBytes? text = (scan? text).map (·.inBytes text) := by
  cases text with
  | nil => rfl
  | cons c rest =>
    have hstop := stopAmong_placed isWordPart c.utf8Size rest
    have hplaced : (placed 0 (c :: rest)).drop 1 = placed c.utf8Size rest := by
      rw [placed, Nat.zero_add]
      rfl
    rw [scanBytes?, scan?, hplaced, bytes_cons, hstop]
    cases hc : isWordStart c with
    | false => simp [hc]
    | true => simp [hc, Extent.inBytes, Extent.ended]

/-! ### Comments and raw literals -/

/-- Reach in bytes of a line comment: up to the first newline. -/
def Comment.lineBytes (utf8 : List UInt8) : Extent :=
  .ended ((findAt? [0x0A] 0 utf8).getD utf8.length)

/-- Reach in bytes of a block comment: up to the first terminator behind its opener. -/
def Comment.blockBytes (utf8 : List UInt8) : Extent :=
  match findAt? [0x2A, 0x2F] 2 utf8 with
  | some close => .ended (close + 2)
  | none => ⟨utf8.length, false⟩

/-- Reach in bytes of a raw literal: up to the first terminator behind its opening parenthesis. -/
def RawString.bytesReach (utf8 : List UInt8) : Extent :=
  match findAt? [0x28] 2 utf8 with
  | some paren =>
    let terminator := 0x29 :: (utf8.drop 2).take (paren - 2) ++ [0x22]
    match findAt? terminator (paren + 1) utf8 with
    | some close => .ended (close + terminator.length)
    | none => ⟨utf8.length, false⟩
  | none => ⟨utf8.length, false⟩

/-- An open extent has all the bytes. -/
theorem Extent.inBytes_openEnded (text : Text) :
    (openEnded text).inBytes text = ⟨(utf8 text).length, false⟩ := by
  rw [openEnded, inBytes, List.take_length, length_utf8]

/-- A closed extent stays closed in bytes. -/
theorem Extent.inBytes_ended (length : Nat) (text : Text) :
    (ended length).inBytes text = .ended (bytes (text.take length)) := rfl

/-- A newline is found in the bytes behind a front where it is found in the text. -/
theorem findAt?_newline (front text : Text) :
    findAt? [0x0A] (bytes front) (utf8 (front ++ text)) =
      (indexFrom? ['\n'] front.length text).map fun index =>
        bytes ((front ++ text).take index) :=
  findAt?_utf8 (d := '\n') (by decide) [] front text

/-- A line comment reaches as far in the bytes. -/
theorem Comment.lineBytes_eq (body : Text) :
    lineBytes (utf8 ('/' :: '/' :: body)) = (lineReach body).inBytes ('/' :: '/' :: body) := by
  have hfind := findAt?_newline [] ('/' :: '/' :: body)
  rw [bytes_nil, List.nil_append, List.length_nil, indexFrom?_singleton] at hfind
  rw [lineBytes, hfind, lineReach]
  generalize '/' :: '/' :: body = text
  by_cases hmem : '\n' ∈ text
  · rw [if_pos hmem, Nat.zero_add]
    rfl
  · have hrun : text.takeWhile (· ≠ '\n') = text :=
      List.takeWhile_eq_self_iff.mpr fun c hc => decide_eq_true fun h => hmem (h ▸ hc)
    rw [if_neg hmem, runLength, hrun, Extent.inBytes_ended, List.take_length, ← length_utf8]
    rfl

/-- A block comment reaches as far in the bytes. -/
theorem Comment.blockBytes_eq (body : Text) :
    blockBytes (utf8 ('/' :: '*' :: body)) = (blockReach body).inBytes ('/' :: '*' :: body) := by
  have hfind : findAt? [0x2A, 0x2F] 2 (utf8 ('/' :: '*' :: body)) =
      ((indexOf? ['*', '/'] body).map (2 + ·)).map fun index =>
        bytes (('/' :: '*' :: body).take index) := by
    rw [indexOf?, ← indexFrom?_add]
    exact findAt?_utf8 (d := '*') (by decide) ['/'] ['/', '*'] body
  rw [blockBytes, hfind, blockReach]
  cases hindex : indexOf? ['*', '/'] body with
  | none => exact (Extent.inBytes_openEnded _).symm
  | some inner =>
    have hclose := bytes_take_of_indexOf? ['/', '*'] hindex
    have hlength : inner + 4 = 2 + inner + 2 := by
      omega
    have hreach : (Extent.ended (inner + 4)).inBytes ('/' :: '*' :: body) =
        .ended (bytes (('/' :: '*' :: body).take (2 + inner + 2))) := by
      rw [Extent.inBytes_ended, hlength]
    exact (congrArg Extent.ended hclose).trans hreach.symm

/-- The terminator of a raw literal in bytes. -/
theorem RawString.utf8_terminator (delimiter : Text) :
    utf8 (terminator delimiter) = 0x29 :: utf8 delimiter ++ [0x22] := by
  rw [terminator, utf8_append, utf8_cons]
  rfl

/-- The opening parenthesis of a raw literal is found behind its delimiter. -/
theorem RawString.findAt?_paren {delimiter : Text} (h : '(' ∉ delimiter) (body : Text) :
    findAt? [0x28] 2 (utf8 ('R' :: '"' :: (delimiter ++ '(' :: body))) =
      some (2 + bytes delimiter) := by
  have hfind : findAt? [0x28] 2 (utf8 ('R' :: '"' :: (delimiter ++ '(' :: body))) =
      (indexFrom? ['('] 2 (delimiter ++ '(' :: body)).map fun index =>
        bytes (('R' :: '"' :: (delimiter ++ '(' :: body)).take index) :=
    findAt?_utf8 (d := '(') (by decide) [] ['R', '"'] (delimiter ++ '(' :: body)
  have hmem : '(' ∈ delimiter ++ '(' :: body :=
    List.mem_append_right delimiter List.mem_cons_self
  have hrun : runLength (· ≠ '(') (delimiter ++ '(' :: body) = delimiter.length := by
    rw [runLength, List.takeWhile_append_of_pos (ne_paren_of_not_mem h),
      List.takeWhile_cons_of_neg (by decide), List.append_nil]
  have htake : ('R' :: '"' :: (delimiter ++ '(' :: body)).take (2 + delimiter.length) =
      ['R', '"'] ++ delimiter := by
    rw [Nat.add_comm, List.take_succ_cons, List.take_succ_cons, List.take_left]
    rfl
  rw [hfind, indexFrom?_singleton, if_pos hmem, hrun, Option.map_some, htake, bytes_append]
  rfl

/-- Behind its opening parenthesis a raw literal reaches as far in the bytes. -/
theorem RawString.bytesReach_of_open {delimiter : Text} (h : '(' ∉ delimiter) (body : Text) :
    bytesReach (utf8 ('R' :: '"' :: (delimiter ++ '(' :: body))) =
      (reach (delimiter ++ '(' :: body)).inBytes ('R' :: '"' :: (delimiter ++ '(' :: body)) := by
  have hmiddle : ((utf8 ('R' :: '"' :: (delimiter ++ '(' :: body))).drop 2).take
      (2 + bytes delimiter - 2) = utf8 delimiter := by
    have hbehind : (utf8 ('R' :: '"' :: (delimiter ++ '(' :: body))).drop 2 =
        utf8 delimiter ++ utf8 ('(' :: body) := by
      rw [← utf8_append]
      rfl
    rw [hbehind, Nat.add_sub_cancel_left, ← length_utf8, List.take_left]
  let front : Text := ['R', '"'] ++ (delimiter ++ ['('])
  have hfront : 'R' :: '"' :: (delimiter ++ '(' :: body) = front ++ body := by
    simp [front]
  have hsize : 2 + bytes delimiter + 1 = bytes front := by
    rw [bytes_append, bytes_append, ← Nat.add_assoc]
    rfl
  have hclose : findAt? (utf8 (terminator delimiter)) (bytes front) (utf8 (front ++ body)) =
      ((indexOf? (terminator delimiter) body).map (front.length + ·)).map fun index =>
        bytes ((front ++ body).take index) := by
    rw [indexOf?, ← indexFrom?_add, Nat.add_zero]
    exact findAt?_utf8 (by decide) (delimiter ++ ['"']) front body
  rw [bytesReach, findAt?_paren h, reach, closeLength?_of_open h]
  dsimp only
  rw [hmiddle, ← utf8_terminator, hsize, hfront, hclose]
  cases hindex : indexOf? (terminator delimiter) body with
  | none => exact (Extent.inBytes_openEnded _).symm
  | some payload =>
    have hreach := bytes_take_of_indexOf? front hindex
    have hlength : 2 + (delimiter.length + 1 + payload + (terminator delimiter).length) =
        front.length + payload + (terminator delimiter).length := by
      simp only [front, List.length_append, List.length_cons, List.length_nil]
      omega
    rw [Option.map_some, Option.map_some, Option.map_some]
    dsimp only
    rw [length_utf8, hreach, Extent.inBytes_ended, hlength]

/-- A raw literal reaches as far in the bytes. -/
theorem RawString.bytesReach_eq (rest : Text) :
    bytesReach (utf8 ('R' :: '"' :: rest)) = (reach rest).inBytes ('R' :: '"' :: rest) := by
  by_cases hmem : '(' ∈ rest
  · obtain ⟨delimiter, body, rfl, hdelimiter⟩ := List.eq_append_cons_of_mem hmem
    exact bytesReach_of_open hdelimiter body
  · have hparen : findAt? [0x28] 2 (utf8 ('R' :: '"' :: rest)) =
        (indexFrom? ['('] 2 rest).map fun index => bytes (('R' :: '"' :: rest).take index) :=
      findAt?_utf8 (d := '(') (by decide) [] ['R', '"'] rest
    rw [indexFrom?_singleton, if_neg hmem] at hparen
    rw [bytesReach, hparen, reach, closeLength?_of_not_mem hmem]
    exact (Extent.inBytes_openEnded _).symm

/-! ### Directives -/

/-- End of a directive that has been followed up to an index, where its current line goes on: at the
next newline, unless a backslash stands directly in front of that one. -/
def Directive.bytesFrom (utf8 : List UInt8) (index : Nat) : Nat :=
  match h : findAt? [0x0A] index utf8 with
  | none => utf8.length
  | some newline =>
    if utf8[newline - 1]? = some 0x5C then bytesFrom utf8 (newline + 1) else newline
termination_by utf8.length - index
decreasing_by
  have hbound := findAt?_bound h
  omega

/-- Reach in bytes of the directive that starts the text. -/
def Directive.scanBytes? (lineBlank : Bool) (utf8 : List UInt8) : Option Extent :=
  if [0x23].isPrefixOf utf8 && lineBlank then some (.ended (bytesFrom utf8 1)) else none

/-- Without another newline a directive takes all the bytes. -/
theorem Directive.bytesFrom_of_none {utf8 : List UInt8} {index : Nat}
    (h : findAt? [0x0A] index utf8 = none) : bytesFrom utf8 index = utf8.length := by
  rw [bytesFrom]
  split
  · rfl
  · next newline hsome =>
    rw [h] at hsome
    cases hsome

/-- What the next newline decides. -/
theorem Directive.bytesFrom_of_some {utf8 : List UInt8} {index newline : Nat}
    (h : findAt? [0x0A] index utf8 = some newline) : bytesFrom utf8 index =
      if utf8[newline - 1]? = some 0x5C then bytesFrom utf8 (newline + 1) else newline := by
  rw [bytesFrom]
  split
  · next hnone =>
    rw [h] at hnone
    cases hnone
  · next other hsome =>
    rw [h] at hsome
    cases hsome
    rfl

/-- Between the same two newlines every index has the same end. -/
theorem Directive.bytesFrom_congr {utf8 : List UInt8} {first last : Nat}
    (h : findAt? [0x0A] first utf8 = findAt? [0x0A] last utf8) :
    bytesFrom utf8 first = bytesFrom utf8 last := by
  cases hlast : findAt? [0x0A] last utf8 with
  | none => rw [bytesFrom_of_none hlast, bytesFrom_of_none (h.trans hlast)]
  | some newline => rw [bytesFrom_of_some hlast, bytesFrom_of_some (h.trans hlast)]

/-- The last byte of a text is a backslash where the last character is. -/
theorem getElem?_utf8_eq_backslash_iff {front : Text} {c : Char} (h : front.getLast? = some c)
    (rest : Text) : (utf8 (front ++ rest))[bytes front - 1]? = some 0x5C ↔ c = '\\' := by
  obtain ⟨earlier, rfl⟩ := List.getLast?_eq_some_iff.mp h
  have hpos : 0 < bytes (earlier ++ [c]) :=
    bytes_pos (List.append_ne_nil_of_right_ne_nil earlier (List.cons_ne_nil c []))
  have hfront : utf8 (earlier ++ [c]) = utf8 earlier ++ String.utf8EncodeChar c := by
    rw [utf8_append, utf8_cons]
    exact congrArg _ (List.append_nil _)
  have hlast : (utf8 (earlier ++ [c] ++ rest))[bytes (earlier ++ [c]) - 1]? =
      (String.utf8EncodeChar c).getLast? := by
    obtain ⟨first, later, hbytes, -, -⟩ := utf8EncodeChar_eq_cons c
    rw [utf8_append, List.getElem?_append_left (by rw [length_utf8]; omega), ← length_utf8,
      ← List.getLast?_eq_getElem?, hfront, hbytes,
      List.getLast?_append_of_ne_nil _ (List.cons_ne_nil first later)]
  rw [hlast]
  constructor
  · intro hbyte
    exact eq_of_toUInt8_mem (d := '\\') (by decide) (List.mem_of_getLast? hbyte)
  · rintro rfl
    rfl

/-- Behind any other character the next newline is the same. -/
theorem findAt?_newline_cons {c : Char} (hc : c ≠ '\n') (front rest : Text) :
    findAt? [0x0A] (bytes front) (utf8 (front ++ c :: rest)) =
      findAt? [0x0A] (bytes (front ++ [c])) (utf8 (front ++ c :: rest)) := by
  have hbehind := findAt?_newline (front ++ [c]) rest
  have hno : ¬ ['\n'].isPrefixOf (c :: rest) = true := by
    rw [List.isPrefixOf_iff_prefix, List.cons_prefix_cons]
    exact fun h => hc h.1.symm
  rw [List.append_assoc, List.length_append] at hbehind
  rw [findAt?_newline, indexFrom?, if_neg hno]
  exact hbehind.symm

/-- A directive that has been followed up to a character ends at the same place in the bytes. The
induction is along the text behind that character. -/
theorem Directive.bytesFrom_eq {front : Text} {previous : Char}
    (hprevious : front.getLast? = some previous) (text : Text) :
    bytesFrom (utf8 (front ++ text)) (bytes front) =
      bytes ((front ++ text).take (lineFrom previous front.length text)) := by
  induction text generalizing front previous with
  | nil =>
    have hend := findAt?_newline front []
    rw [bytesFrom_of_none hend, lineFrom, List.append_nil, List.take_length, length_utf8]
  | cons c rest ih =>
    have hlast : (front ++ [c]).getLast? = some c := List.getLast?_concat
    have hnext := ih hlast
    rw [List.append_assoc, List.length_append, List.singleton_append] at hnext
    rw [lineFrom]
    by_cases hc : c = '\n'
    · subst hc
      have hfound : findAt? [0x0A] (bytes front) (utf8 (front ++ '\n' :: rest)) =
          some (bytes front) := by
        have hbegin : ['\n'].isPrefixOf ('\n' :: rest) = true :=
          List.isPrefixOf_iff_prefix.mpr ⟨rest, rfl⟩
        rw [findAt?_newline, indexFrom?, if_pos hbegin, Option.map_some, List.take_left]
      have hback := getElem?_utf8_eq_backslash_iff hprevious ('\n' :: rest)
      rw [bytesFrom_of_some hfound]
      by_cases hslash : previous = '\\'
      · have hsize : bytes front + 1 = bytes (front ++ ['\n']) := (bytes_append front ['\n']).symm
        rw [if_pos (hback.mpr hslash), if_neg fun h => h.2 hslash, hsize]
        exact hnext
      · rw [if_neg (mt hback.mp hslash), if_pos ⟨rfl, hslash⟩, List.take_left]
    · rw [if_neg fun h => hc h.1, bytesFrom_congr (findAt?_newline_cons hc _ rest)]
      exact hnext

/-- A directive is found by its bytes. -/
theorem Directive.scanBytes?_eq (lineBlank : Bool) (text : Text) :
    scanBytes? lineBlank (utf8 text) = (scan? lineBlank text).map (·.inBytes text) := by
  have hmark : utf8 ['#'] <+: utf8 text ↔ ['#'] <+: text := utf8_prefix_iff
  by_cases hbegin : ['#'] <+: text
  · have hprefix : [0x23].isPrefixOf (utf8 text) = true :=
      List.isPrefixOf_iff_prefix.mpr (hmark.mpr hbegin)
    obtain ⟨rest, rfl⟩ := hbegin
    have hlast : (['#'] : Text).getLast? = some '#' := rfl
    have hend : bytesFrom (utf8 (['#'] ++ rest)) 1 =
        bytes ((['#'] ++ rest).take (lineFrom '#' 1 rest)) :=
      bytesFrom_eq hlast rest
    have hscan : scan? lineBlank (['#'] ++ rest) =
        if lineBlank then some (.ended (lineFrom '#' 1 rest)) else none := rfl
    rw [scanBytes?, hprefix, hend, hscan, Bool.true_and]
    split <;> rfl
  · have hno : ¬ [0x23].isPrefixOf (utf8 text) = true :=
      mt List.isPrefixOf_iff_prefix.mp (mt hmark.mp hbegin)
    have hdeclined : scan? lineBlank text = none := by
      unfold scan?
      split
      · next rest => exact absurd ⟨rest, rfl⟩ hbegin
      · rfl
    rw [scanBytes?, Bool.eq_false_of_not_eq_true hno, hdeclined]
    rfl

/-! ### Attributes -/

/-- Reach in bytes of an attribute that has been followed up to an index, with a counter of open
attributes that starts again at zero behind its greatest value. -/
def Attribute.wrapFrom (utf8 : List UInt8) (index : Nat) (depth : UInt32) : Extent :=
  if _h : index < utf8.length ∧ depth ≠ 0 then
    if [0x5B, 0x5B].isPrefixOf (utf8.drop index) then wrapFrom utf8 (index + 2) (depth + 1)
    else if [0x5D, 0x5D].isPrefixOf (utf8.drop index) then wrapFrom utf8 (index + 2) (depth - 1)
    else wrapFrom utf8 (index + 1) depth
  else if depth = 0 then .ended index else ⟨utf8.length, false⟩
termination_by utf8.length - index

/-- As long as the counter stays in its range it does not start again. -/
theorem Attribute.wrapFrom_of_ok {utf8 : List UInt8} {index : Nat} {depth : UInt32}
    {extent : Extent} (h : bytesFrom utf8 index depth = .ok extent) :
    wrapFrom utf8 index depth = extent := by
  fun_induction wrapFrom utf8 index depth with
  | case1 index depth hmore hopen ih =>
    rw [bytesFrom, dif_pos hmore, if_pos hopen, raise] at h
    split at h
    · exact ih h
    · cases h
  | case2 index depth hmore hopen hclose ih =>
    rw [bytesFrom, dif_pos hmore, if_neg hopen, if_pos hclose, lower, if_neg hmore.2] at h
    exact ih h
  | case3 index depth hmore hopen hclose ih =>
    rw [bytesFrom, dif_pos hmore, if_neg hopen, if_neg hclose] at h
    exact ih h
  | case4 index hmore =>
    rw [bytesFrom, dif_neg hmore, if_pos rfl] at h
    exact Except.ok.inj h
  | case5 index depth hmore hdepth =>
    rw [bytesFrom, dif_neg hmore, if_neg hdepth] at h
    exact Except.ok.inj h

/-- Reach in bytes of the attribute that starts the text. -/
def Attribute.wrapBytes? (utf8 : List UInt8) : Option Extent :=
  behindOpener? [0x5B, 0x5B] (wrapFrom · 2 1) utf8

/-- An attribute is found by its bytes in a text of fewer than 2^32 bytes. -/
theorem Attribute.wrapBytes?_eq {text : Text} (hsize : bytes text < UInt32.size) :
    wrapBytes? (utf8 text) = (scan? text).map (·.inBytes text) := by
  refine scan?_behind.behindOpener?_inBytes fun body hbody => ?_
  have hone : (1 : UInt32).toNat = 0 + 1 := rfl
  have hroom : bytes text = 2 + bytes body := by
    rw [hbody]
    exact bytes_append opener body
  have hwalk := bytesFrom_utf8 opener body 0 hone (by omega)
  rw [hbody]
  exact wrapFrom_of_ok hwalk

/-! ### Numbers -/

/-- A byte is a decimal digit. -/
def Number.isDigitByte (byte : UInt8) : Bool :=
  0x30 ≤ byte && byte ≤ 0x39

/-- Reach in bytes of the number that starts the text: what its pattern matches first, unless that
is nothing. -/
def Number.scanBytes? (text : Text) : Option Extent :=
  if (utf8 text).head?.any isDigitByte then
    let first := (Pattern.lengths numeral text).head?
    ((first.map fun length => bytes (text.take length)).filter (0 < ·)).map .ended
  else none

/-- The first byte of a text is a digit where the first character is. -/
theorem Number.isDigitByte_head?_iff (c : Char) (rest : Text) :
    (utf8 (c :: rest)).head?.any isDigitByte = true ↔ c.isDigit = true := by
  obtain ⟨first, later, hbytes, hfirst, -⟩ := utf8EncodeChar_eq_cons c
  have hhead : (utf8 (c :: rest)).head? = some first := by
    rw [utf8_cons, hbytes]
    rfl
  have hbyte : isDigitByte first = true ↔ 48 ≤ first.toNat ∧ first.toNat ≤ 57 := by
    simp [isDigitByte, UInt8.le_iff_toNat_le]
  have hchar : c.isDigit = true ↔ 48 ≤ c.toNat ∧ c.toNat ≤ 57 := by
    simp [Char.isDigit, UInt32.le_iff_toNat_le]
  rw [hhead, Option.any_some, hbyte, hchar]
  constructor
  · rintro ⟨hlow, hhigh⟩
    rw [hfirst (by omega)]
    exact ⟨hlow, hhigh⟩
  · rintro ⟨hlow, hhigh⟩
    rw [utf8EncodeChar_of_lt (by omega)] at hbytes
    rw [← (List.cons.inj hbytes).1, toNat_toUInt8 (by omega)]
    exact ⟨hlow, hhigh⟩

/-- A number is found by its bytes. -/
theorem Number.scanBytes?_eq (text : Text) :
    scanBytes? text = (scan? text).map (·.inBytes text) := by
  rw [scanBytes?, longest_numeral.first, scan?]
  cases hlength : length? text with
  | none =>
    split <;> rfl
  | some length =>
    obtain ⟨c, rest, rfl, hdigit⟩ :=
      (isSome_length?_iff text).mp (Option.isSome_of_eq_some hlength)
    obtain ⟨hpos, hle⟩ := length?_bound hlength
    have hsize := bytes_take_pos hpos hle
    rw [if_pos ((isDigitByte_head?_iff c rest).mpr hdigit)]
    dsimp only
    rw [Option.map_some, Option.filter_some, if_pos (decide_eq_true hsize)]
    rfl

/-! ### Every rule -/

namespace Rule

/-- How far a rule reaches in bytes when it looks at the UTF-8 form. -/
def reachBytes? (rule : Rule) (context : Context) (text : Text) : Option Extent :=
  match rule with
  | whitespace => Space.scanBytes? text
  | attributeSpec => Attribute.wrapBytes? (utf8 text)
  | lineComment => behindOpener? [0x2F, 0x2F] Comment.lineBytes (utf8 text)
  | blockComment => behindOpener? [0x2F, 0x2A] Comment.blockBytes (utf8 text)
  | directive => Directive.scanBytes? context.lineBlank (utf8 text)
  | rawString => behindOpener? [0x52, 0x22] RawString.bytesReach (utf8 text)
  | string => Quoted.scanBytes? 0x22 (utf8 text)
  | character => Quoted.scanBytes? 0x27 (utf8 text)
  | number => if context.behindLetter then none else Number.scanBytes? text
  | word => Word.scanBytes? text

/-- What a rule recognizes when it looks at the UTF-8 form, with the extent in bytes. -/
def scanBytes? (rule : Rule) (context : Context) (text : Text) : Option Match :=
  (rule.reachBytes? context text).map fun extent =>
    ⟨rule.kindOf (text.slice 0 extent.length), extent⟩

/-- Every rule reaches as far in the bytes. Only the counter of open attributes has to be large
enough for the text. -/
theorem reachBytes?_eq {rule : Rule} {text : Text}
    (h : rule = attributeSpec → bytes text < UInt32.size) (context : Context) :
    rule.reachBytes? context text = (rule.reach? context text).map (·.inBytes text) := by
  cases rule with
  | whitespace => exact Space.scanBytes?_eq text
  | attributeSpec => exact Attribute.wrapBytes?_eq (h rfl)
  | lineComment =>
    refine Comment.line?_behind.behindOpener?_inBytes ?_
    rintro body rfl
    exact Comment.lineBytes_eq body
  | blockComment =>
    refine Comment.block?_behind.behindOpener?_inBytes ?_
    rintro body rfl
    exact Comment.blockBytes_eq body
  | directive => exact Directive.scanBytes?_eq context.lineBlank text
  | rawString =>
    refine RawString.scan?_behind.behindOpener?_inBytes ?_
    rintro body rfl
    exact RawString.bytesReach_eq body
  | string =>
    have hquote : '"' ∈ Quoted.quotes := List.mem_cons_self
    exact Quoted.scanBytes?_utf8 hquote text
  | character =>
    have hquote : '\x27' ∈ Quoted.quotes := List.mem_cons_of_mem '"' List.mem_cons_self
    exact Quoted.scanBytes?_utf8 hquote text
  | number =>
    rw [reachBytes?, reach?, Number.scanBytes?_eq]
    split <;> rfl
  | word => exact Word.scanBytes?_eq text

/-- Every rule answers by the bytes where it answers by the characters, in a text of any size. -/
theorem isSome_reachBytes? (rule : Rule) (context : Context) (text : Text) :
    (rule.reachBytes? context text).isSome = (rule.reach? context text).isSome := by
  by_cases hrule : rule = attributeSpec
  · subst hrule
    have hopener := Attribute.scan?_behind.behindOpener?_eq (Attribute.wrapFrom · 2 1) text
    have hanswers := congrArg Option.isSome hopener
    rwa [Option.isSome_map] at hanswers
  · rw [reachBytes?_eq fun h => absurd h hrule, Option.isSome_map]

end Rule

/-- The answer of a rule with its extent counted in bytes of the text. -/
def Match.inBytes (found : Match) (text : Text) : Match :=
  ⟨found.kind, found.extent.inBytes text⟩

/-- So many characters at the front of a text are the slice of their bytes. -/
theorem slice_bytes_take (length : Nat) (text : Text) :
    text.slice 0 (bytes (text.take length)) = text.take length := by
  have hslice := slice_append [] (text.take length) (text.drop length)
  rwa [List.nil_append, List.take_append_drop, bytes_nil, Nat.zero_add] at hslice

/-- Every rule finds by the bytes what it finds by the characters. Only the counter of open
attributes has to be large enough for the text. -/
theorem Rule.scanBytes?_eq {rule : Rule} {text : Text}
    (h : rule = attributeSpec → bytes text < UInt32.size) (context : Context) :
    rule.scanBytes? context text = (rule.scan? context text).map (·.inBytes text) := by
  rw [scanBytes?, reachBytes?_eq h, scan?_eq, Option.map_map, Option.map_map]
  refine Option.map_congr fun extent _ => ?_
  have htaken := slice_bytes_take extent.length text
  exact congrArg (fun taken => Match.mk (rule.kindOf taken) (extent.inBytes text)) htaken

end Scan

end CodeTint
