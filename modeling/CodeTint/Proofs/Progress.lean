import CodeTint.Proofs.ByteRules
import CodeTint.Proofs.Source.Offsets

/-!
# Every rule moves the scan forward

A rule that answers at a place in front of a character takes at least one byte, no byte behind the
text, and no part of a character. What it leaves open it takes up to the end. This does not depend
on how the scan has come to the place, or on whether it ever comes there, and it holds of texts of
any size: a counter of open attributes that starts again at zero only ends an attribute early.
-/

namespace CodeTint

open Text

/-- A boundary of a text is not behind its end. -/
theorem Text.le_bytes_of_isBoundary {text : Text} {offset : Nat} (h : text.IsBoundary offset) :
    offset ≤ bytes text := by
  obtain ⟨front, ⟨rest, rfl⟩, rfl⟩ := h
  rw [bytes_append]
  exact Nat.le_add_right _ _

/-- Behind a byte of a text that is a character below 128 the next character starts, or the text
ends. -/
theorem Text.isBoundary_of_utf8_eq {d : Char} (hd : d.toNat < 128) {text : Text}
    {front behind : List UInt8} (h : utf8 text = front ++ d.toUInt8 :: behind) :
    text.IsBoundary (front.length + 1) := by
  induction text generalizing front with
  | nil => exact absurd h.symm (List.append_ne_nil_of_right_ne_nil _ (List.cons_ne_nil _ _))
  | cons c rest ih =>
    have hbehind : ∀ later, utf8 rest = later ++ d.toUInt8 :: behind →
        IsBoundary (c :: rest) ((String.utf8EncodeChar c ++ later).length + 1) := by
      intro later hlater
      obtain ⟨taken, htaken, hsize⟩ := ih hlater
      refine ⟨c :: taken, (List.prefix_cons_inj c).mpr htaken, ?_⟩
      rw [bytes_cons, hsize, List.length_append, String.length_utf8EncodeChar, Nat.add_assoc]
    rw [utf8_cons, List.append_eq_append_iff] at h
    rcases h with ⟨later, rfl, hlater⟩ | ⟨later, hchar, hlater⟩
    · exact hbehind later hlater
    · cases later with
      | nil =>
        rw [List.append_nil] at hchar
        have hrest := hbehind [] hlater.symm
        rwa [List.append_nil, hchar] at hrest
      | cons byte later =>
        -- the byte belongs to the first character, which then has no other
        obtain rfl : d.toUInt8 = byte := (List.cons.inj hlater).1
        obtain rfl : c = d := by
          refine eq_of_toUInt8_mem hd ?_
          rw [hchar]
          exact List.mem_append_right front List.mem_cons_self
        have hone := congrArg List.length hchar
        rw [utf8EncodeChar_of_lt hd, List.length_append, List.length_cons, List.length_cons,
          List.length_nil] at hone
        have hsize := String.length_utf8EncodeChar c
        rw [utf8EncodeChar_of_lt hd] at hsize
        refine ⟨[c], ⟨rest, rfl⟩, ?_⟩
        rw [bytes_cons, bytes_nil, ← hsize, List.length_singleton]
        omega

/-- Behind a pair of bytes that are characters below 128 the next character starts, or the text
ends. -/
theorem Text.isBoundary_add_two {d : Char} (hd : d.toNat < 128) {text : Text} {index : Nat}
    (hindex : index < (utf8 text).length)
    (h : [d.toUInt8, d.toUInt8].isPrefixOf ((utf8 text).drop index) = true) :
    text.IsBoundary (index + 2) := by
  obtain ⟨behind, hbehind⟩ := List.isPrefixOf_iff_prefix.mp h
  have hfront : ((utf8 text).take index).length = index :=
    List.length_take_of_le (Nat.le_of_lt hindex)
  have hwhole : utf8 text = ((utf8 text).take index ++ [d.toUInt8]) ++ d.toUInt8 :: behind := by
    rw [List.append_assoc, List.singleton_append]
    exact (List.take_append_drop index (utf8 text)).symm.trans (congrArg _ hbehind.symm)
  have hboundary := isBoundary_of_utf8_eq hd hwhole
  rwa [List.length_append, hfront] at hboundary

namespace Scan

/-- A place in front of a character of a text. -/
structure Cursor where
  /-- The text. -/
  source : Text
  /-- Number of bytes in front of the place. -/
  offset : Nat
  /-- Only blanks are taken to stand since the last newline or the start. -/
  lineBlank : Bool
  /-- The place is not inside a character. -/
  boundary : source.IsBoundary offset
  /-- The place is not behind the last character. -/
  inside : offset < bytes source

namespace Cursor

/-- What stands in front of the place. -/
def front (cursor : Cursor) : Text :=
  cursor.source.slice 0 cursor.offset

/-- What stands behind the place. -/
def rest (cursor : Cursor) : Text :=
  cursor.source.slice cursor.offset (bytes cursor.source)

/-- What a rule may know of the text in front of the place. -/
def context (cursor : Cursor) : Context :=
  ⟨cursor.lineBlank, cursor.front.getLast?⟩

/-- The text is what stands in front of the place and behind it. -/
theorem front_append_rest (cursor : Cursor) :
    cursor.front ++ cursor.rest = cursor.source ∧ bytes cursor.front = cursor.offset := by
  obtain ⟨source, offset, lineBlank, ⟨front, ⟨rest, rfl⟩, rfl⟩, inside⟩ := cursor
  have hfront := slice_append [] front rest
  have hrest := slice_append front rest []
  rw [List.nil_append, bytes_nil, Nat.zero_add] at hfront
  rw [List.append_nil, ← bytes_append] at hrest
  rw [Cursor.front, Cursor.rest, hfront, hrest]
  exact ⟨rfl, rfl⟩

/-- The bytes of the text are those in front of the place and those behind it. -/
theorem bytes_source (cursor : Cursor) :
    bytes cursor.source = cursor.offset + bytes cursor.rest := by
  obtain ⟨hwhole, hsize⟩ := cursor.front_append_rest
  rw [← hwhole, bytes_append, hsize]

/-- A character stands behind the place. -/
theorem exists_rest (cursor : Cursor) : ∃ c behind, cursor.rest = c :: behind := by
  refine List.exists_cons_of_ne_nil fun hnil => ?_
  have hinside := cursor.inside
  rw [cursor.bytes_source, hnil, bytes_nil, Nat.add_zero] at hinside
  exact Nat.lt_irrefl _ hinside

end Cursor

/-- An extent in bytes that moves a scan forward from a place: it has at least one byte, it ends
inside the text and not inside a character, and it ends with the text when it is not closed. -/
structure Advances (cursor : Cursor) (extent : Extent) : Prop where
  /-- At least one byte is taken. -/
  positive : 1 ≤ extent.length
  /-- No byte behind the text is taken. -/
  within : extent.length ≤ bytes cursor.rest
  /-- No part of a character is taken. -/
  boundary : cursor.source.IsBoundary (cursor.offset + extent.length)
  /-- What was not closed takes all the bytes. -/
  whole : extent.closed = false → extent.length = bytes cursor.rest

/-- What ends at a boundary of the text behind a place ends at one of the whole text. -/
theorem Cursor.isBoundary_add (cursor : Cursor) {length : Nat}
    (h : cursor.rest.IsBoundary length) : cursor.source.IsBoundary (cursor.offset + length) := by
  obtain ⟨hwhole, hsize⟩ := cursor.front_append_rest
  obtain ⟨taken, htaken, rfl⟩ := h
  refine ⟨cursor.front ++ taken, ?_, ?_⟩
  · rw [← hwhole]
    exact (List.prefix_append_right_inj cursor.front).mpr htaken
  · rw [bytes_append, hsize]

/-- An extent moves a scan forward when it ends at a boundary of the text behind the place. -/
theorem Advances.of_isBoundary {cursor : Cursor} {extent : Extent} (hpos : 1 ≤ extent.length)
    (hboundary : cursor.rest.IsBoundary extent.length)
    (hwhole : extent.closed = false → extent.length = bytes cursor.rest) :
    Advances cursor extent :=
  ⟨hpos, le_bytes_of_isBoundary hboundary, cursor.isBoundary_add hboundary, hwhole⟩

/-- An extent in characters that fits the text behind a place moves a scan forward. -/
theorem Extent.Fits.advances {cursor : Cursor} {extent : Extent} (h : extent.Fits cursor.rest) :
    Advances cursor (extent.inBytes cursor.rest) := by
  obtain ⟨hpos, hwithin, hwhole⟩ := h
  have hsize := bytes_take_pos hpos hwithin
  refine .of_isBoundary hsize ⟨_, List.take_prefix _ _, rfl⟩ fun hopen => ?_
  rw [Extent.inBytes, hwhole hopen, List.take_length]

/-- An attribute that is followed byte by byte ends behind a bracket or with the text, whatever
becomes of the counter. -/
theorem Attribute.wrapFrom_stops {text : Text} {index : Nat} {depth : UInt32}
    (hindex : index ≤ (utf8 text).length) (hzero : depth = 0 → text.IsBoundary index) :
    index ≤ (wrapFrom (utf8 text) index depth).length ∧
      text.IsBoundary (wrapFrom (utf8 text) index depth).length ∧
      ((wrapFrom (utf8 text) index depth).closed = false →
        (wrapFrom (utf8 text) index depth).length = bytes text) := by
  have hpair {index : Nat} (h : text.IsBoundary (index + 2)) : index + 2 ≤ (utf8 text).length := by
    rw [length_utf8]
    exact le_bytes_of_isBoundary h
  generalize hutf8 : utf8 text = utf8 at *
  fun_induction wrapFrom utf8 index depth with
  | case1 index depth hmore hopen ih =>
    subst hutf8
    have hboundary := isBoundary_add_two (d := '[') (by decide) hmore.1 hopen
    obtain ⟨hle, hstops⟩ := ih (fun _ => hboundary) (hpair hboundary)
    exact ⟨by omega, hstops⟩
  | case2 index depth hmore hopen hclose ih =>
    subst hutf8
    have hboundary := isBoundary_add_two (d := ']') (by decide) hmore.1 hclose
    obtain ⟨hle, hstops⟩ := ih (fun _ => hboundary) (hpair hboundary)
    exact ⟨by omega, hstops⟩
  | case3 index depth hmore hopen hclose ih =>
    obtain ⟨hle, hstops⟩ := ih (fun h => absurd h hmore.2) hmore.1
    exact ⟨by omega, hstops⟩
  | case4 index hmore =>
    refine ⟨Nat.le_refl _, hzero rfl, fun hopen => ?_⟩
    cases hopen
  | case5 index depth hmore hdepth =>
    have hsize : utf8.length = bytes text := by
      rw [← hutf8, length_utf8]
    refine ⟨hindex, ?_, fun _ => hsize⟩
    rw [hsize]
    exact ⟨text, List.prefix_rfl, rfl⟩

/-- Whatever a rule finds by the bytes moves the scan forward, in a text of any size. -/
theorem Rule.scanBytes?_advances {rule : Rule} {cursor : Cursor} {found : Match}
    (h : rule.scanBytes? cursor.context cursor.rest = some found) :
    Advances cursor found.extent := by
  obtain ⟨extent, hextent, rfl⟩ := Option.map_eq_some_iff.mp h
  by_cases hrule : rule = attributeSpec
  · subst hrule
    rw [reachBytes?, Attribute.wrapBytes?, behindOpener?, Option.ite_none_right_eq_some] at hextent
    obtain ⟨hopener, hreach⟩ := hextent
    have hopen : 2 ≤ (utf8 cursor.rest).length :=
      (List.isPrefixOf_iff_prefix.mp hopener).length_le
    have hone : (1 : UInt32) ≠ 0 := by
      decide
    obtain ⟨hle, hstops, hwhole⟩ :=
      Attribute.wrapFrom_stops hopen fun hzero => absurd hzero hone
    rw [Option.some.inj hreach] at hle hstops hwhole
    exact .of_isBoundary (Nat.le_of_succ_le hle) hstops hwhole
  · rw [reachBytes?_eq fun h => absurd h hrule] at hextent
    obtain ⟨reached, hreached, rfl⟩ := Option.map_eq_some_iff.mp hextent
    exact (reach?_fits hreached).advances

/-- Where no rule answers, all the bytes of the next character are taken. -/
theorem Match.single_inBytes (c : Char) (behind : Text) :
    single.inBytes (c :: behind) = ⟨.other, .ended c.utf8Size⟩ := by
  have hsize : bytes [c] = c.utf8Size := bytes_cons c []
  rw [← hsize]
  rfl

/-- Taking the next character moves the scan forward. -/
theorem Match.single_advances (cursor : Cursor) :
    Advances cursor (single.inBytes cursor.rest).extent := by
  obtain ⟨c, behind, hrest⟩ := cursor.exists_rest
  have hfits : (Extent.ended 1).Fits cursor.rest := by
    rw [hrest]
    exact Extent.fits_ended Nat.one_pos (Nat.le_add_left 1 behind.length)
  exact hfits.advances

/-- What can be taken at a place: what some rule finds, or the next character. -/
def Cursor.Takes (cursor : Cursor) (found : Match) : Prop :=
  (∃ rule : Rule, rule.scanBytes? cursor.context cursor.rest = some found) ∨
    found = Match.single.inBytes cursor.rest

/-- A scan can go from one place to another one in a step, whatever it then takes to stand on the
line so far. -/
def Cursor.Reaches (cursor next : Cursor) : Prop :=
  next.source = cursor.source ∧
    ∃ found, cursor.Takes found ∧ next.offset = cursor.offset + found.extent.length

/-- A step leaves fewer bytes. -/
theorem Cursor.Reaches.bytes_rest_lt {cursor next : Cursor} (h : cursor.Reaches next) :
    bytes next.rest < bytes cursor.rest := by
  obtain ⟨hsource, found, htakes, hoffset⟩ := h
  have hadvances : Advances cursor found.extent := by
    rcases htakes with ⟨rule, hrule⟩ | rfl
    · exact Rule.scanBytes?_advances hrule
    · exact Match.single_advances cursor
  have hpos := hadvances.positive
  have hbefore := cursor.bytes_source
  have hbehind := next.bytes_source
  rw [hsource] at hbehind
  omega

/-- A scan ends wherever it starts, whichever of the rules are tried and in whatever order. -/
theorem wellFounded_reaches : WellFounded fun next cursor : Cursor => cursor.Reaches next :=
  Subrelation.wf Cursor.Reaches.bytes_rest_lt
    (InvImage.wf (fun cursor : Cursor => bytes cursor.rest) Nat.lt_wfRel.wf)

/-- At any place in front of a character, and whatever is taken to stand in front of it on its line,
a rule answers exactly where it is allowed to and one of its constructs begins. It then takes at
least one byte, none behind the text and no part of a character, and all the rest where it leaves
something open. That holds of the rules that look at characters and of those that look at bytes.
Both answer alike, those for attributes as long as their counter is large enough for the text. Where
no rule answers, the next character is taken. -/
theorem rules_advance (cursor : Cursor) :
    (∀ rule : Rule,
      ((rule.scan? cursor.context cursor.rest).isSome ↔
        rule.Allowed cursor.context ∧ rule.Begins cursor.rest) ∧
      ((rule.scanBytes? cursor.context cursor.rest).isSome ↔
        rule.Allowed cursor.context ∧ rule.Begins cursor.rest)) ∧
    (∀ (rule : Rule) (found : Match), rule.scan? cursor.context cursor.rest = some found →
      Advances cursor (found.extent.inBytes cursor.rest)) ∧
    (∀ (rule : Rule) (found : Match), rule.scanBytes? cursor.context cursor.rest = some found →
      Advances cursor found.extent) ∧
    (∀ rule : Rule, (rule = .attributeSpec → bytes cursor.rest < UInt32.size) →
      rule.scanBytes? cursor.context cursor.rest =
        (rule.scan? cursor.context cursor.rest).map (·.inBytes cursor.rest)) ∧
    ∃ c behind, cursor.rest = c :: behind ∧
      Match.single.inBytes cursor.rest = ⟨.other, .ended c.utf8Size⟩ ∧
      Advances cursor (.ended c.utf8Size) := by
  have hanswers (rule : Rule) := Rule.isSome_reach?_iff rule cursor.context cursor.rest
  refine ⟨fun rule => ⟨?_, ?_⟩, fun rule found h => (Rule.scan?_fits h).advances,
    fun rule found h => Rule.scanBytes?_advances h, fun rule h => Rule.scanBytes?_eq h _, ?_⟩
  · rw [Rule.scan?_eq, Option.isSome_map, hanswers]
  · rw [Rule.scanBytes?, Option.isSome_map, Rule.isSome_reachBytes?, hanswers]
  · obtain ⟨c, behind, hrest⟩ := cursor.exists_rest
    have hadvances := Match.single_advances cursor
    have hsingle := Match.single_inBytes c behind
    rw [← hrest] at hsingle
    rw [hsingle] at hadvances
    exact ⟨c, behind, hrest, hsingle, hadvances⟩

/-- An opener at the end of the text and inside a literal, where no scan from the start looks for a
comment, takes the two bytes that are left. -/
theorem rules_advance_unreached :
    ∃ cursor : Cursor, cursor.source = "\"\u00e9/*".toList ∧ cursor.offset = 3 ∧
      cursor.lineBlank = true ∧
      (Token.next Rule.all .start 0 cursor.source).text = cursor.source ∧
      Rule.blockComment.scan? cursor.context cursor.rest = some ⟨.blockComment, ⟨2, false⟩⟩ ∧
      Advances cursor ⟨2, false⟩ := by
  let cursor : Cursor := ⟨"\"\u00e9/*".toList, 3, true, by decide, by decide⟩
  have hscan : Rule.blockComment.scan? cursor.context cursor.rest =
      some ⟨.blockComment, ⟨2, false⟩⟩ := by
    decide
  have hnext : (Token.next Rule.all .start 0 cursor.source).text = cursor.source := by
    decide
  exact ⟨cursor, rfl, rfl, rfl, hnext, hscan, (rules_advance cursor).2.1 _ _ hscan⟩

end Scan

end CodeTint
