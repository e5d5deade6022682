import CodeTint.Highlight
import CodeTint.Proofs.Merging
import CodeTint.Proofs.Run

/-!
# Tokens and fragments partition the text

Spans tile a text when they cut it into nonempty pieces of whole characters without gaps. The
tokens of every run tile the text, and joining plain neighbours keeps it tiled. Offsets are exact
as long as the size of the text fits the 32 bits of an offset.
-/

namespace CodeTint

open Text

/-- The characters of a text between two byte offsets. -/
def Text.slice (start stop : Nat) (text : Text) : Text :=
  (text.take (fitLength stop text)).drop (fitLength start text)

/-- The number of bytes of some of the first characters of a text. -/
def Text.IsBoundary (text : Text) (offset : Nat) : Prop :=
  ∃ front, front <+: text ∧ bytes front = offset

/-- A prefix has as many characters as fit into its bytes. -/
theorem Text.fitLength_append (front rest : Text) :
    fitLength (bytes front) (front ++ rest) = front.length := by
  induction front with
  | nil =>
    cases rest with
    | nil => rfl
    | cons c rest =>
      have hc := c.utf8Size_pos
      exact if_neg (Nat.not_le_of_lt hc)
  | cons c front ih =>
    rw [List.cons_append, fitLength, bytes_cons, if_pos (Nat.le_add_right _ _),
      Nat.add_sub_cancel_left, ih, List.length_cons]

/-- A piece of a text is the slice between the bytes in front of it and those up to its end. -/
theorem Text.slice_append (front piece rest : Text) :
    slice (bytes front) (bytes front + bytes piece) (front ++ (piece ++ rest)) = piece := by
  have hstart := fitLength_append front (piece ++ rest)
  have hstop := fitLength_append (front ++ piece) rest
  rw [bytes_append, List.append_assoc] at hstop
  rw [slice, hstart, hstop, ← List.append_assoc, List.take_left, List.drop_left]

namespace Span

/-- Behind an offset the spans cut the text into nonempty pieces of whole characters, each of
which starts where the one in front of it ends, up to the last byte. -/
def Tiles (text : Text) : Nat → List Span → Prop
  | offset, [] => offset = bytes text
  | offset, span :: rest =>
    span.start.toNat = offset ∧ offset < span.stop.toNat ∧
      text.IsBoundary span.stop.toNat ∧ Tiles text span.stop.toNat rest

/-- Each span covers its piece of text, the pieces are nonempty, and they stand one behind the
other from an offset on. -/
def Laid : Nat → List (Span × Text) → Prop
  | _, [] => True
  | start, (span, piece) :: rest =>
    span = ofRange start (start + bytes piece) ∧ piece ≠ [] ∧ Laid (start + bytes piece) rest

/-- The span of a piece inside a text that fits is exact. -/
theorem ofRange_exact_of_append {front piece rest text : Text}
    (hwhole : front ++ (piece ++ rest) = text) (hsize : bytes text < UInt32.size) :
    (ofRange (bytes front) (bytes front + bytes piece)).start.toNat = bytes front ∧
      (ofRange (bytes front) (bytes front + bytes piece)).stop.toNat =
        bytes front + bytes piece := by
  have hbytes : bytes text = bytes front + (bytes piece + bytes rest) := by
    rw [← hwhole, bytes_append, bytes_append]
  exact ofRange_exact (by omega) (by omega)

/-- The spans of pieces laid behind a text tile the whole. -/
theorem Laid.tiles (front : Text) {text : Text} {pieces : List (Span × Text)}
    (h : Laid (bytes front) pieces) (hwhole : front ++ pieces.flatMap Prod.snd = text)
    (hsize : bytes text < UInt32.size) : Tiles text (bytes front) (pieces.map Prod.fst) := by
  induction pieces generalizing front with
  | nil =>
    rw [← hwhole, List.flatMap_nil, List.append_nil]
    rfl
  | cons head rest ih =>
    obtain ⟨span, piece⟩ := head
    obtain ⟨rfl, hpiece, hrest⟩ := h
    simp only [List.flatMap_cons] at hwhole
    have hpos := bytes_pos hpiece
    have hbytes := bytes_append front piece
    obtain ⟨hstart, hstop⟩ := ofRange_exact_of_append hwhole hsize
    rw [← List.append_assoc] at hwhole
    refine ⟨hstart, ?_, ?_, ?_⟩
    · rw [hstop]
      omega
    · rw [hstop, ← hbytes, ← hwhole]
      exact ⟨front ++ piece, List.prefix_append _ _, rfl⟩
    · rw [hstop, ← hbytes]
      rw [← hbytes] at hrest
      exact ih (front ++ piece) hrest hwhole

/-- Pieces that are laid are nonempty. -/
theorem Laid.ne_nil {start : Nat} {pieces : List (Span × Text)} (h : Laid start pieces)
    {span : Span} {piece : Text} (hmem : (span, piece) ∈ pieces) : piece ≠ [] := by
  induction pieces generalizing start with
  | nil => cases hmem
  | cons head rest ih =>
    rcases List.mem_cons.mp hmem with rfl | hmem
    · exact h.2.1
    · exact ih h.2.2 hmem

/-- A piece laid behind a text stands somewhere in the whole, and its span covers it there. -/
theorem Laid.exists_split (front : Text) {text : Text} {pieces : List (Span × Text)}
    (h : Laid (bytes front) pieces) (hwhole : front ++ pieces.flatMap Prod.snd = text)
    {span : Span} {piece : Text} (hmem : (span, piece) ∈ pieces) :
    ∃ before rest, before ++ (piece ++ rest) = text ∧
      span = ofRange (bytes before) (bytes before + bytes piece) := by
  induction pieces generalizing front with
  | nil => cases hmem
  | cons head others ih =>
    obtain ⟨first, taken⟩ := head
    obtain ⟨rfl, -, hothers⟩ := h
    simp only [List.flatMap_cons] at hwhole
    rcases List.mem_cons.mp hmem with heq | hmem
    · obtain ⟨rfl, rfl⟩ := Prod.mk.inj heq
      exact ⟨front, _, hwhole, rfl⟩
    · rw [← bytes_append] at hothers
      rw [← List.append_assoc] at hwhole
      exact ih (front ++ taken) hothers hwhole hmem

/-- Pieces laid behind a text are the slices of the whole at their spans. -/
theorem Laid.eq_slice (front : Text) {text : Text} {pieces : List (Span × Text)}
    (h : Laid (bytes front) pieces) (hwhole : front ++ pieces.flatMap Prod.snd = text)
    (hsize : bytes text < UInt32.size) {span : Span} {piece : Text}
    (hmem : (span, piece) ∈ pieces) :
    piece = text.slice span.start.toNat span.stop.toNat := by
  obtain ⟨before, rest, hsplit, rfl⟩ := h.exists_split front hwhole hmem
  obtain ⟨hstart, hstop⟩ := ofRange_exact_of_append hsplit hsize
  rw [hstart, hstop, ← hsplit, slice_append]

end Span

namespace Token

/-- What a token covers and holds. -/
def piece (token : Token) : Span × Text :=
  (token.span, token.text)

/-- The tokens of a run are laid from its start on. -/
theorem laid_scan (table : List Scan.Rule) (context : Scan.Context) (start : Nat) (text : Text) :
    Span.Laid start ((scan table context start text).map piece) := by
  induction context, start, text using scan_induction table with
  | nil context start =>
    rw [scan_nil]
    trivial
  | cons context start text htext ih =>
    rw [scan_of_ne_nil table context start htext, List.map_cons]
    have hstop : (next table context start text).stop =
        start + bytes (next table context start text).text := by
      rw [stop, start_next]
    refine ⟨?_, (text_next table context start htext).1, ?_⟩
    · rw [span, start_next, hstop]
    · rw [← hstop]
      exact ih

/-- The tokens of a text tile it. -/
theorem tiles_lex (attributes : Bool) {text : Text} (h : bytes text < UInt32.size) :
    Span.Tiles text 0 ((lex attributes text).map span) := by
  have hlaid := laid_scan (Scan.Rule.inForce attributes Scan.Rule.all) .start 0 text
  have hwhole : ((lex attributes text).map piece).flatMap Prod.snd = text := by
    rw [List.flatMap_map]
    exact flatMap_text_lex attributes text
  have htiles := Span.Laid.tiles [] hlaid hwhole h
  rwa [List.map_map] at htiles

end Token

namespace Fragment

/-- What a fragment covers and holds. -/
def piece (fragment : Fragment) : Span × Text :=
  (fragment.span, fragment.text)

/-- Joining in front keeps the fragments laid. -/
theorem laid_mergeOnto {start : Nat} {fragment : Fragment} {fragments : List Fragment}
    (h : Span.Laid start (fragment.piece :: fragments.map piece)) :
    Span.Laid start ((fragment.mergeOnto fragments).map piece) := by
  rcases mergeOnto_eq_or fragment fragments with ⟨heq, -⟩ | ⟨next, rest, rfl, -, -, heq⟩
  · rw [heq]
    exact h
  · obtain ⟨hspan, hpiece, hnext, -, hrest⟩ := h
    rw [Nat.add_assoc, ← bytes_append] at hrest
    rw [heq]
    refine ⟨?_, List.append_ne_nil_of_left_ne_nil hpiece _, hrest⟩
    change fragment.span.cover next.span = Span.ofRange start
      (start + bytes (fragment.text ++ next.text))
    rw [hspan, hnext, Span.cover_ofRange, bytes_append, Nat.add_assoc]

/-- Joining plain neighbours keeps the fragments laid. -/
theorem laid_mergePlain {start : Nat} {fragments : List Fragment}
    (h : Span.Laid start (fragments.map piece)) :
    Span.Laid start ((mergePlain fragments).map piece) := by
  induction fragments generalizing start with
  | nil => trivial
  | cons fragment fragments ih =>
    exact laid_mergeOnto ⟨h.1, h.2.1, ih h.2.2⟩

/-- The fragments of a text are laid from its first byte on. -/
theorem laid_classify (scheme : Scheme) (text : Text) :
    Span.Laid 0 ((classify scheme text).fragments.map piece) := by
  have hlaid := Token.laid_scan (Scan.Rule.inForce scheme.attributes Scan.Rule.all) .start 0 text
  apply laid_mergePlain
  rw [List.map_map]
  exact hlaid

/-- The fragments of a text hold the text and nothing else. -/
theorem wholeText_classify (scheme : Scheme) (text : Text) :
    wholeText (classify scheme text).fragments = text := by
  rw [classify, wholeText_ofTokens]
  exact Token.flatMap_text_lex scheme.attributes text

/-- The fragments of a text tile it. -/
theorem tiles_classify (scheme : Scheme) {text : Text} (h : bytes text < UInt32.size) :
    Span.Tiles text 0 ((classify scheme text).fragments.map span) := by
  have hwhole : ((classify scheme text).fragments.map piece).flatMap Prod.snd = text := by
    rw [List.flatMap_map]
    exact wholeText_classify scheme text
  have htiles := Span.Laid.tiles [] (laid_classify scheme text) hwhole h
  rwa [List.map_map] at htiles

/-- A fragment holds the slice of the text at its span. -/
theorem text_eq_slice (scheme : Scheme) {text : Text} (h : bytes text < UInt32.size)
    {fragment : Fragment} (hmem : fragment ∈ (classify scheme text).fragments) :
    fragment.text = text.slice fragment.span.start.toNat fragment.span.stop.toNat := by
  have hwhole : ((classify scheme text).fragments.map piece).flatMap Prod.snd = text := by
    rw [List.flatMap_map]
    exact wholeText_classify scheme text
  exact Span.Laid.eq_slice [] (laid_classify scheme text) hwhole h (List.mem_map_of_mem hmem)

end Fragment

/-- The tokens of a text of fewer than 2^32 bytes partition it, and so do its fragments; a
fragment holds the slice of the text at its span, and no two plain ones are neighbours. -/
theorem lex_classify_partition {text : Text} (h : bytes text < UInt32.size) :
    (∀ attributes, Span.Tiles text 0 ((Token.lex attributes text).map Token.span)) ∧
      ∀ scheme, Span.Tiles text 0 ((classify scheme text).fragments.map Fragment.span) ∧
        (∀ fragment ∈ (classify scheme text).fragments,
          fragment.text = text.slice fragment.span.start.toNat fragment.span.stop.toNat) ∧
        Fragment.wholeText (classify scheme text).fragments = text ∧
        (classify scheme text).fragments.IsChain Fragment.Apart := by
  constructor
  · intro attributes
    exact Token.tiles_lex attributes h
  · intro scheme
    refine ⟨Fragment.tiles_classify scheme h, ?_, Fragment.wholeText_classify scheme text, ?_⟩
    · intro fragment hfragment
      exact Fragment.text_eq_slice scheme h hfragment
    · exact Fragment.isChain_mergePlain _

/-- Characters of several bytes inside an unclosed string, and plain tokens that are joined. -/
theorem lex_classify_partition_unclosed :
    bytes "x = \"\u00e9\u4e2d;".toList < UInt32.size ∧
      (Token.lex true "x = \"\u00e9\u4e2d;".toList).map Token.span =
        [⟨0, 1⟩, ⟨1, 2⟩, ⟨2, 3⟩, ⟨3, 4⟩, ⟨4, 11⟩] ∧
      Span.Tiles "x = \"\u00e9\u4e2d;".toList 0 [⟨0, 1⟩, ⟨1, 2⟩, ⟨2, 3⟩, ⟨3, 4⟩, ⟨4, 11⟩] ∧
      (classify .literal "x = \"\u00e9\u4e2d;".toList).fragments.map Fragment.span =
        [⟨0, 4⟩, ⟨4, 11⟩] ∧
      Span.Tiles "x = \"\u00e9\u4e2d;".toList 0 [⟨0, 4⟩, ⟨4, 11⟩] := by
  have htokens : (Token.lex true "x = \"\u00e9\u4e2d;".toList).map Token.span =
      [⟨0, 1⟩, ⟨1, 2⟩, ⟨2, 3⟩, ⟨3, 4⟩, ⟨4, 11⟩] := by
    decide +kernel
  have hfragments : (classify .literal "x = \"\u00e9\u4e2d;".toList).fragments.map Fragment.span =
      [⟨0, 4⟩, ⟨4, 11⟩] := by
    decide +kernel
  obtain ⟨htiles, hclassify⟩ := lex_classify_partition
    (by decide : bytes "x = \"\u00e9\u4e2d;".toList < UInt32.size)
  refine ⟨by decide, htokens, ?_, hfragments, ?_⟩
  · exact htokens ▸ htiles true
  · exact hfragments ▸ (hclassify .literal).1

end CodeTint
