import CodeTint.Proofs.Clipping.Scanners
import CodeTint.Proofs.Utf8
import Mathlib.Algebra.Ring.Parity
import Mathlib.Data.List.DropRight
import Mathlib.Data.List.Find

/-!
# Quoted literals close at the first quote that is not escaped

Read from front to back, a backslash takes the next character with it. Looked at from behind, a
quote is not taken when the number of backslashes directly in front of it is even, counted back to
the opener. The same literal is found byte by byte in the UTF-8 form, where a backslash takes one
byte only: what is left of a longer character are bytes that no quote and no backslash has.
-/

namespace CodeTint

namespace Scan

open Text

namespace Quoted

/-- The quotes of string and of character literals. -/
def quotes : List Char :=
  ['"', '\x27']

/-- The texts with which a literal opens: its quote behind an optional encoding prefix. -/
def openers (quote : Char) : List Text :=
  [[quote], ['u', '8', quote], ['L', quote], ['u', quote], ['U', quote]]

/-- The bytes of the openers. -/
def byteOpeners (quote : UInt8) : List (List UInt8) :=
  [[quote], [0x75, 0x38, quote], [0x4C, quote], [0x75, quote], [0x55, quote]]

/-- Number of bytes of the opener at the front of some bytes. -/
def openerBytes? (quote : UInt8) (utf8 : List UInt8) : Option Nat :=
  ((byteOpeners quote).find? (·.isPrefixOf utf8)).map List.length

/-- Reach in bytes of a literal that has been followed up to an index. A backslash skips one byte
behind it, but none behind the last one. -/
def bytesFrom (quote : UInt8) (utf8 : List UInt8) (index : Nat) : Extent :=
  if _h : index < utf8.length then
    if utf8[index] = quote then .ended (index + 1)
    else if utf8[index] = 0x5C then bytesFrom quote utf8 (min (index + 2) utf8.length)
    else bytesFrom quote utf8 (index + 1)
  else ⟨utf8.length, false⟩
termination_by utf8.length - index

/-- Reach in bytes of the literal with this quote at the front of some bytes. -/
def scanBytes? (quote : UInt8) (utf8 : List UInt8) : Option Extent :=
  (openerBytes? quote utf8).map fun opener => bytesFrom quote utf8 opener

/-- A quote is one byte, and no backslash. -/
theorem bounds_of_mem_quotes :
    ∀ quote ∈ quotes, quote.toNat < 128 ∧ '\\' ≠ quote ∧ (0x5C : UInt8) ≠ quote.toUInt8 :=
  Text.forall_mem_of_all (by decide)

/-- Behind the last byte the literal is open. -/
theorem bytesFrom_end (quote : UInt8) (front : List UInt8) :
    bytesFrom quote front front.length = ⟨front.length, false⟩ := by
  rw [bytesFrom, dif_neg (Nat.lt_irrefl _)]

/-- What a byte at the index decides. -/
theorem bytesFrom_append_cons (quote byte : UInt8) (front rest : List UInt8) :
    bytesFrom quote (front ++ byte :: rest) front.length =
      if byte = quote then .ended (front.length + 1)
      else if byte = 0x5C then
        bytesFrom quote (front ++ byte :: rest)
          (min (front.length + 2) (front ++ byte :: rest).length)
      else bytesFrom quote (front ++ byte :: rest) (front.length + 1) := by
  have hlt : front.length < (front ++ byte :: rest).length := by
    rw [List.length_append, List.length_cons]
    omega
  rw [bytesFrom, dif_pos hlt, List.getElem_append_right (Nat.le_refl _)]
  simp only [Nat.sub_self, List.getElem_cons_zero]

/-- Bytes that are neither the quote nor a backslash are passed over. -/
theorem bytesFrom_run {quote : UInt8} {run : List UInt8}
    (hrun : ∀ byte ∈ run, byte ≠ quote ∧ byte ≠ 0x5C) (front rest : List UInt8) :
    bytesFrom quote (front ++ (run ++ rest)) front.length =
      bytesFrom quote (front ++ (run ++ rest)) (front.length + run.length) := by
  induction run generalizing front with
  | nil => rfl
  | cons byte run ih =>
    have hbyte := hrun byte List.mem_cons_self
    have hnext := ih (fun other h => hrun other (List.mem_cons_of_mem byte h)) (front ++ [byte])
    simp only [List.append_assoc, List.singleton_append, List.length_append,
      List.length_singleton] at hnext
    rw [List.cons_append, bytesFrom_append_cons, if_neg hbyte.1, if_neg hbyte.2, hnext,
      List.length_cons]
    congr 1
    omega

/-- The bytes of a character that is neither the quote nor a backslash are passed over. -/
theorem bytesFrom_other {quote c : Char} (hquote : quote.toNat < 128) (hc : c ≠ quote)
    (hslash : c ≠ '\\') (front rest : Text) :
    bytesFrom quote.toUInt8 (utf8 (front ++ c :: rest)) (bytes front) =
      bytesFrom quote.toUInt8 (utf8 (front ++ c :: rest)) (bytes (front ++ [c])) := by
  have hrun : ∀ byte ∈ String.utf8EncodeChar c, byte ≠ quote.toUInt8 ∧ byte ≠ 0x5C := by
    intro byte hbyte
    constructor
    · rintro rfl
      exact hc (eq_of_toUInt8_mem hquote hbyte)
    · rintro rfl
      exact hslash (eq_of_toUInt8_mem (d := '\\') (by decide) hbyte)
  have hskip := bytesFrom_run hrun (utf8 front) (utf8 rest)
  rw [← utf8_cons, ← utf8_append, length_utf8, String.length_utf8EncodeChar] at hskip
  rw [hskip, bytes_append, bytes_cons, bytes_nil, Nat.add_zero]

/-- A backslash and the character behind it are passed over. Of a character of several bytes the
backslash skips the first one, and the others are neither the quote nor a backslash. -/
theorem bytesFrom_escape {quote : Char} (hquote : quote ∈ quotes) (front : Text) (c : Char)
    (rest : Text) :
    bytesFrom quote.toUInt8 (utf8 (front ++ '\\' :: c :: rest)) (bytes front) =
      bytesFrom quote.toUInt8 (utf8 (front ++ '\\' :: c :: rest)) (bytes (front ++ ['\\', c])) := by
  obtain ⟨first, later, hbytes, -, hlater⟩ := utf8EncodeChar_eq_cons c
  obtain ⟨hquoteLow, -, hslash⟩ := bounds_of_mem_quotes quote hquote
  have hlow := toNat_toUInt8 hquoteLow
  have hrun : ∀ byte ∈ later, byte ≠ quote.toUInt8 ∧ byte ≠ 0x5C := by
    intro byte hbyte
    have hle := hlater byte hbyte
    constructor
    · rintro rfl
      omega
    · rintro rfl
      exact absurd hle (by decide)
  have hwhole : utf8 (front ++ '\\' :: c :: rest) =
      utf8 front ++ 0x5C :: (first :: (later ++ utf8 rest)) := by
    rw [utf8_append, utf8_cons, utf8_cons, hbytes]
    rfl
  have hsize : bytes (front ++ ['\\', c]) = (utf8 front).length + 2 + later.length := by
    have hlength := String.length_utf8EncodeChar c
    rw [hbytes, List.length_cons] at hlength
    have hone : '\\'.utf8Size = 1 := rfl
    rw [bytes_append, bytes_cons, bytes_cons, bytes_nil, length_utf8]
    omega
  have hskip := bytesFrom_run hrun (utf8 front ++ [0x5C, first]) (utf8 rest)
  simp only [List.append_assoc, List.cons_append, List.nil_append, List.length_append,
    List.length_cons, List.length_nil, Nat.zero_add, Nat.reduceAdd] at hskip
  have hmin : min ((utf8 front).length + 2)
      (utf8 front ++ 0x5C :: first :: (later ++ utf8 rest)).length = (utf8 front).length + 2 := by
    simp only [List.length_append, List.length_cons]
    omega
  rw [hsize, hwhole, ← length_utf8 front, bytesFrom_append_cons, if_neg hslash, if_pos rfl, hmin,
    hskip]

/-- A backslash at the end is the last byte, and there is none for it to skip. -/
theorem bytesFrom_escape_nil {quote : Char} (hquote : quote ∈ quotes) (front : Text) :
    bytesFrom quote.toUInt8 (utf8 (front ++ ['\\'])) (bytes front) =
      ⟨bytes (front ++ ['\\']), false⟩ := by
  obtain ⟨-, -, hslash⟩ := bounds_of_mem_quotes quote hquote
  have hwhole : utf8 (front ++ ['\\']) = utf8 front ++ [0x5C] := utf8_append front ['\\']
  have hmin : min ((utf8 front).length + 2) (utf8 front ++ [0x5C]).length =
      (utf8 front ++ [0x5C]).length := by
    rw [List.length_append, List.length_singleton]
    omega
  rw [← length_utf8 front, ← length_utf8, hwhole, bytesFrom_append_cons,
    if_neg hslash, if_pos rfl, hmin, bytesFrom_end]

/-- The byte of the quote ends the literal. -/
theorem bytesFrom_quote {quote : Char} (hquote : quote.toNat < 128) (front rest : Text) :
    bytesFrom quote.toUInt8 (utf8 (front ++ quote :: rest)) (bytes front) =
      .ended (bytes (front ++ [quote])) := by
  have hsize : bytes (front ++ [quote]) = (utf8 front).length + 1 := by
    rw [← length_utf8, utf8_append, List.length_append, utf8_cons, utf8EncodeChar_of_lt hquote]
    rfl
  rw [hsize, ← length_utf8 front, utf8_append, utf8_cons, utf8EncodeChar_of_lt hquote,
    List.singleton_append, bytesFrom_append_cons, if_pos rfl]

/-- Followed byte by byte, a literal reaches as far as character by character. -/
theorem bytesFrom_utf8 {quote : Char} (hquote : quote ∈ quotes) (front text : Text) :
    bytesFrom quote.toUInt8 (utf8 (front ++ text)) (bytes front) =
      (bodyFrom quote front.length text).inBytes (front ++ text) := by
  obtain ⟨hlow, -, -⟩ := bounds_of_mem_quotes quote hquote
  generalize htaken : front.length = taken
  fun_induction bodyFrom quote taken text generalizing front with
  | case1 taken =>
    subst htaken
    rw [List.append_nil, ← length_utf8 front, bytesFrom_end, length_utf8, Extent.inBytes,
      List.take_length]
  | case2 taken rest =>
    subst htaken
    rw [bytesFrom_quote hlow, Extent.inBytes, List.take_length_add_append]
    rfl
  | case3 taken =>
    subst htaken
    rw [bytesFrom_escape_nil hquote, Extent.inBytes, List.take_length_add_append]
    rfl
  | case4 taken c rest _ ih =>
    subst htaken
    have hnext := ih (front ++ ['\\', c]) List.length_append
    rw [List.append_assoc] at hnext
    rw [bytesFrom_escape hquote]
    exact hnext
  | case5 taken c rest hc hslash ih =>
    subst htaken
    have hnext := ih (front ++ [c]) List.length_append
    rw [List.append_assoc] at hnext
    rw [bytesFrom_other hlow hc hslash]
    exact hnext

/-- The openers are found in the bytes where they are found in the characters. -/
theorem openerBytes?_utf8 {quote : Char} (hquote : quote ∈ quotes) (text : Text) :
    openerBytes? quote.toUInt8 (utf8 text) = openerLength? quote text := by
  have hopeners : ∀ quote ∈ quotes, byteOpeners quote.toUInt8 =
      encodings.map fun encoding => utf8 (encoding ++ [quote]) :=
    Text.forall_mem_of_all (by decide)
  have hbytes : ∀ quote ∈ quotes, ∀ encoding ∈ encodings,
      (utf8 (encoding ++ [quote])).length = encoding.length + 1 :=
    Text.forall_mem_of_all (by decide)
  have hfind : encodings.find? ((·.isPrefixOf (utf8 text)) ∘ fun encoding =>
      utf8 (encoding ++ [quote])) =
        encodings.find? fun encoding => (encoding ++ [quote]).isPrefixOf text := by
    refine List.find?_congr fun encoding _ => ?_
    rw [Bool.eq_iff_iff, Function.comp_apply, List.isPrefixOf_iff_prefix,
      List.isPrefixOf_iff_prefix, utf8_prefix_iff]
  rw [openerBytes?, hopeners quote hquote, List.find?_map, hfind, Option.map_map, openerLength?]
  refine Option.map_congr fun encoding hencoding => ?_
  exact hbytes quote hquote encoding (List.mem_of_find?_eq_some hencoding)

/-- The number of characters of the opener is that of an opener at the front. -/
theorem exists_opener_of_openerLength? {quote : Char} {text : Text} {length : Nat}
    (h : openerLength? quote text = some length) :
    ∃ opener ∈ openers quote, opener <+: text ∧ length = opener.length := by
  simp only [openerLength?, Option.map_eq_some_iff] at h
  obtain ⟨encoding, hfind, rfl⟩ := h
  have hmem : encoding ++ [quote] ∈ encodings.map (· ++ [quote]) :=
    List.mem_map_of_mem (List.mem_of_find?_eq_some hfind)
  refine ⟨encoding ++ [quote], hmem, List.isPrefixOf_iff_prefix.mp (List.find?_some
    (p := fun encoding => (encoding ++ [quote]).isPrefixOf text) hfind), ?_⟩
  rw [List.length_append, List.length_singleton]

/-- No opener begins another one, so the opener at the front is found. -/
theorem openerLength?_of_prefix {quote : Char} (hquote : quote ∈ quotes) {opener text : Text}
    (hopener : opener ∈ openers quote) (hbegin : opener <+: text) :
    openerLength? quote text = some opener.length := by
  have hfree : ∀ quote ∈ quotes, ∀ first ∈ openers quote, ∀ last ∈ openers quote,
      first <+: last → first = last :=
    Text.forall_mem_of_all (by decide)
  cases hlength : openerLength? quote text with
  | none =>
    rw [openerLength?, Option.map_eq_none_iff, List.find?_eq_none] at hlength
    obtain ⟨encoding, hencoding, rfl⟩ := List.mem_map.mp
      (show opener ∈ encodings.map (· ++ [quote]) from hopener)
    exact absurd (List.isPrefixOf_iff_prefix.mpr hbegin) (hlength encoding hencoding)
  | some length =>
    obtain ⟨other, hother, hbegins, rfl⟩ := exists_opener_of_openerLength? hlength
    rcases List.prefix_or_prefix_of_prefix hbegin hbegins with hle | hle
    · rw [hfree quote hquote opener hopener other hother hle]
    · rw [hfree quote hquote other hother opener hopener hle]

/-- Byte by byte, a literal is found and followed as character by character. -/
theorem scanBytes?_utf8 {quote : Char} (hquote : quote ∈ quotes) (text : Text) :
    scanBytes? quote.toUInt8 (utf8 text) = (scan? quote text).map (·.inBytes text) := by
  have hsize : ∀ quote ∈ quotes, ∀ opener ∈ openers quote, bytes opener = opener.length :=
    Text.forall_mem_of_all (by decide)
  rw [scanBytes?, openerBytes?_utf8 hquote, scan?, Option.map_map]
  refine Option.map_congr fun length hlength => ?_
  obtain ⟨opener, hopener, ⟨body, rfl⟩, rfl⟩ := exists_opener_of_openerLength? hlength
  have hbody := bytesFrom_utf8 hquote opener body
  rw [hsize quote hquote opener hopener] at hbody
  rw [Function.comp_apply, List.drop_left]
  exact hbody

/-- Number of backslashes at the end of a text. -/
def slashes (front : Text) : Nat :=
  (front.rtakeWhile (· = '\\')).length

/-- Behind some of a body there is a quote with an even number of backslashes in front of it. -/
def Closes (quote : Char) (body front : Text) : Prop :=
  front ++ [quote] <+: body ∧ Even (slashes front)

/-- Behind some of a body there is the first quote with an even number of backslashes in front of
it. -/
structure ClosesFirst (quote : Char) (body front : Text) : Prop where
  /-- There is such a quote. -/
  closes : Closes quote body front
  /-- No such quote stands in front of it. -/
  first : ∀ earlier, Closes quote body earlier → front.length ≤ earlier.length

/-- A character in front counts when it is a backslash and only backslashes follow it. -/
theorem slashes_cons (c : Char) (rest : Text) :
    slashes (c :: rest) = slashes rest + if c = '\\' ∧ rest.all (· = '\\') then 1 else 0 := by
  induction rest using List.reverseRecOn with
  | nil => by_cases hc : c = '\\' <;> simp [slashes, List.rtakeWhile, hc]
  | append_singleton rest last ih =>
    rw [slashes, slashes, ← List.cons_append, List.rtakeWhile_concat, List.rtakeWhile_concat]
    by_cases hlast : last = '\\'
    · have hall : (rest ++ [last]).all (· = '\\') = rest.all (· = '\\') := by
        simp [hlast]
      rw [if_pos (decide_eq_true hlast), if_pos (decide_eq_true hlast), List.length_append,
        List.length_append, ← slashes, ← slashes, ih, hall]
      omega
    · have hall : (rest ++ [last]).all (· = '\\') = false := by
        simp [hlast]
      rw [if_neg (mt of_decide_eq_true hlast), if_neg (mt of_decide_eq_true hlast), hall,
        if_neg fun h => Bool.false_ne_true h.2, Nat.add_zero]

/-- A piece at the front of a body closes nothing and leaves what closes the rest. -/
def PassedOver (quote : Char) (piece : Text) : Prop :=
  ∀ rest front, Closes quote (piece ++ rest) front ↔
    ∃ inside, front = piece ++ inside ∧ Closes quote rest inside

/-- A piece is passed over when it does not change how a run of backslashes counts, and none of its
characters is a quote that could close. -/
theorem passedOver_of_slashes {quote : Char} {piece : Text}
    (hslashes : ∀ inside, Even (slashes (piece ++ inside)) ↔ Even (slashes inside))
    (hpiece : ∀ inside last, piece = inside ++ quote :: last → ¬ Even (slashes inside)) :
    PassedOver quote piece := by
  intro rest front
  constructor
  · rintro ⟨⟨behind, hbehind⟩, heven⟩
    rw [List.append_assoc] at hbehind
    rcases List.append_eq_append_iff.mp hbehind with ⟨last, rfl, hlast⟩ | ⟨inside, rfl, hrest⟩
    · -- the quote is the first character of the rest, or one of the piece
      cases last with
      | nil =>
        have hinside := (hslashes []).mp (by rwa [List.append_nil, List.append_nil])
        exact ⟨[], by rw [List.append_nil, List.append_nil], ⟨behind, hlast⟩, hinside⟩
      | cons c last =>
        obtain rfl : quote = c := (List.cons.inj hlast).1
        exact absurd heven (hpiece front last rfl)
    · refine ⟨inside, rfl, ⟨behind, ?_⟩, (hslashes inside).mp heven⟩
      rw [hrest, List.append_assoc]
  · rintro ⟨inside, rfl, ⟨behind, rfl⟩, heven⟩
    refine ⟨⟨behind, ?_⟩, (hslashes inside).mpr heven⟩
    simp only [List.append_assoc]

/-- A backslash and the character behind it are passed over. -/
theorem passedOver_escape {quote : Char} (hquote : '\\' ≠ quote) (c : Char) :
    PassedOver quote ['\\', c] := by
  refine passedOver_of_slashes (fun inside => ?_) fun inside last hpiece heven => ?_
  · simp only [List.cons_append, List.nil_append, slashes_cons, List.all_cons, Bool.and_eq_true,
      decide_eq_true_eq, true_and]
    split
    · exact Nat.even_add_one.trans (Nat.even_add_one.not.trans not_not)
    · exact Iff.rfl
  · -- the backslash is no quote, and behind it the number is odd
    rcases inside with _ | ⟨d, _ | ⟨e, inside⟩⟩
    · exact hquote (List.cons.inj hpiece).1
    · obtain rfl : '\\' = d := (List.cons.inj hpiece).1
      exact absurd heven (by decide)
    · simpa using congrArg List.length hpiece

/-- Every character but the quote and the backslash is passed over. -/
theorem passedOver_other {quote c : Char} (hc : c ≠ quote) (hslash : c ≠ '\\') :
    PassedOver quote [c] := by
  refine passedOver_of_slashes (fun inside => ?_) fun inside last hpiece _ => ?_
  · rw [List.singleton_append, slashes_cons, if_neg fun h => hslash h.1, Nat.add_zero]
  · rcases inside with _ | ⟨d, inside⟩
    · exact hc (List.cons.inj hpiece).1
    · simpa using congrArg List.length hpiece

/-- What closes first behind a piece that is passed over closes first. -/
theorem PassedOver.closesFirst {quote : Char} {piece : Text} (h : PassedOver quote piece)
    {rest front : Text} (hfront : ClosesFirst quote rest front) :
    ClosesFirst quote (piece ++ rest) (piece ++ front) where
  closes := (h rest _).mpr ⟨front, rfl, hfront.closes⟩
  first earlier hearlier := by
    obtain ⟨inside, rfl, hinside⟩ := (h rest earlier).mp hearlier
    have hle := hfront.first inside hinside
    rw [List.length_append, List.length_append]
    omega

/-- The extent of a body, with the characters taken in front of it: up to the quote that closes
first, or all of it. -/
def ReachesFirst (quote : Char) (taken : Nat) (body : Text) (extent : Extent) : Prop :=
  (∃ front, ClosesFirst quote body front ∧ extent = ⟨taken + front.length + 1, true⟩) ∨
    ((∀ front, ¬ Closes quote body front) ∧ extent = ⟨taken + body.length, false⟩)

/-- A piece that is passed over adds to what has been taken. -/
theorem PassedOver.reachesFirst {quote : Char} {piece : Text} (h : PassedOver quote piece)
    {taken : Nat} {rest : Text} {extent : Extent}
    (hrest : ReachesFirst quote (taken + piece.length) rest extent) :
    ReachesFirst quote taken (piece ++ rest) extent := by
  rcases hrest with ⟨front, hfront, rfl⟩ | ⟨hnone, rfl⟩
  · refine Or.inl ⟨piece ++ front, h.closesFirst hfront, ?_⟩
    rw [List.length_append, Nat.add_assoc taken]
  · refine Or.inr ⟨fun front hfront => ?_, ?_⟩
    · obtain ⟨inside, -, hinside⟩ := (h rest front).mp hfront
      exact hnone inside hinside
    · rw [List.length_append, Nat.add_assoc]

/-- A body ends behind the quote that closes first, and without one it takes all the text. -/
theorem bodyFrom_reachesFirst {quote : Char} (hquote : '\\' ≠ quote) (taken : Nat) (text : Text) :
    ReachesFirst quote taken text (bodyFrom quote taken text) := by
  fun_induction bodyFrom quote taken text with
  | case1 taken =>
    refine Or.inr ⟨fun front hfront => ?_, rfl⟩
    exact absurd (List.prefix_nil.mp hfront.1) (List.append_ne_nil_of_right_ne_nil front (by simp))
  | case2 taken rest =>
    have hnone : Even (slashes []) := Nat.even_iff.mpr rfl
    exact Or.inl ⟨[], ⟨⟨⟨rest, rfl⟩, hnone⟩, fun _ _ => Nat.zero_le _⟩, rfl⟩
  | case3 taken =>
    refine Or.inr ⟨fun front hfront => ?_, rfl⟩
    have hmem : quote ∈ ['\\'] :=
      hfront.1.subset (List.mem_append_right front (List.mem_singleton_self quote))
    exact hquote (List.mem_singleton.mp hmem).symm
  | case4 taken c rest _ ih => exact (passedOver_escape hquote c).reachesFirst ih
  | case5 taken c rest hc hslash ih => exact (passedOver_other hc hslash).reachesFirst ih

/-- A literal ends behind the first quote that an even number of backslashes precedes, counted back
to the opener, and without such a quote it takes all the text. Texts without an opener are declined.
Stepping through the bytes of the text gives the same answers. -/
theorem scan?_closes_first {quote : Char} (hquote : quote ∈ quotes) (text : Text) :
    scanBytes? quote.toUInt8 (utf8 text) = (scan? quote text).map (·.inBytes text) ∧
    (∀ opener ∈ openers quote, ∀ body, text = opener ++ body →
      (∃ front, ClosesFirst quote body front ∧
        scan? quote text = some (.ended (opener ++ front ++ [quote]).length)) ∨
      ((∀ front, ¬ Closes quote body front) ∧ scan? quote text = some (.openEnded text))) ∧
    ((∀ opener ∈ openers quote, ¬ opener <+: text) → scan? quote text = none) := by
  obtain ⟨-, hslash, -⟩ := bounds_of_mem_quotes quote hquote
  refine ⟨scanBytes?_utf8 hquote text, ?_, ?_⟩
  · rintro opener hopener body rfl
    have hlength := openerLength?_of_prefix hquote hopener (List.prefix_append opener body)
    rw [scan?, hlength, Option.map_some, List.drop_left]
    rcases bodyFrom_reachesFirst hslash opener.length body with
      ⟨front, hfront, hbody⟩ | ⟨hnone, hbody⟩
    · refine Or.inl ⟨front, hfront, ?_⟩
      rw [hbody, List.length_append, List.length_append]
      rfl
    · refine Or.inr ⟨hnone, ?_⟩
      rw [hbody, Extent.openEnded, List.length_append]
  · intro hnone
    rw [scan?, Option.map_eq_none_iff, Option.eq_none_iff_forall_ne_some]
    intro length hlength
    obtain ⟨opener, hopener, hbegin, -⟩ := exists_opener_of_openerLength? hlength
    exact hnone opener hopener hbegin

/-- Behind two backslashes the quote closes, and the taken `é` counts for two bytes. -/
theorem scan?_closes_first_escaped :
    '"' ∈ quotes ∧
    scan? '"' ['u', '8', '"', '\\', 'é', '\n', '\\', '\\', '\\', '"', '\\', '\\', '"', 'x'] =
      some (.ended 13) ∧
    scanBytes? 0x22
        (utf8 ['u', '8', '"', '\\', 'é', '\n', '\\', '\\', '\\', '"', '\\', '\\', '"', 'x']) =
      some (.ended 14) := by
  have hquote : '"' ∈ quotes := List.mem_cons_self
  have hscan : scan? '"' ['u', '8', '"', '\\', 'é', '\n', '\\', '\\', '\\', '"', '\\', '\\', '"',
      'x'] = some (.ended 13) := by
    decide
  refine ⟨hquote, hscan, (scan?_closes_first hquote _).1.trans ?_⟩
  rw [hscan]
  decide

end Quoted

end Scan

end CodeTint
