import CodeTint.Proofs.Recoloring
import CodeTint.Proofs.Source.Offsets

/-!
# The limit of offsets

A span keeps the low 32 bits of two offsets, so it tells where a token starts and stops exactly when
the token stops below 2^32. With the source at hand a fragment need not carry its text: it can be cut
out of the source at its span, and a plain token behind a plain fragment moves the end of the cut.
That gives the fragments of the text as long as its size is below the limit. From there on either a
span cannot be cut, since its ends are reversed or one of them is inside a character, or the
fragments together hold as many bytes as the size of the text leaves modulo 2^32.
-/

namespace CodeTint

open Text

namespace Token

open Scan

/-- The span of a token tells where the token starts and where it stops. -/
structure Named (token : Token) : Prop where
  /-- The first byte of the span is that of the token. -/
  start : token.span.start.toNat = token.start
  /-- The last byte of the span is that of the token. -/
  stop : token.span.stop.toNat = token.stop

/-- The tokens that stop below the limit are told by their spans, and no others. -/
theorem named_iff (token : Token) : token.Named ↔ token.stop < UInt32.size := by
  constructor
  · intro h
    rw [← h.stop]
    exact token.span.stop.toNat_lt
  · intro h
    have hle : token.start ≤ token.stop := Nat.le_add_right _ _
    obtain ⟨hstart, hstop⟩ := Span.ofRange_exact (Nat.lt_of_le_of_lt hle h) h
    exact ⟨hstart, hstop⟩

/-- One token of a nonempty text stops where the text does. -/
theorem exists_stop_eq (table : List Rule) (context : Context) (start : Nat) {text : Text}
    (h : text ≠ []) : ∃ token ∈ scan table context start text, token.stop = start + bytes text := by
  induction context, start, text using scan_induction table with
  | nil context start => exact absurd rfl h
  | cons context start text htext ih =>
    have hsum := stop_next_add table context start htext
    rw [scan_of_ne_nil table context start htext]
    by_cases hrest : text.drop (next table context start text).text.length = []
    · rw [hrest, bytes_nil, Nat.add_zero] at hsum
      exact ⟨_, List.mem_cons_self, hsum⟩
    · obtain ⟨token, htoken, hstop⟩ := ih hrest
      exact ⟨token, List.mem_cons_of_mem _ htoken, hstop.trans hsum⟩

/-- All tokens of a text are told by their spans exactly when its size is below the limit. -/
theorem named_lex_iff (attributes : Bool) (text : Text) :
    (∀ token ∈ lex attributes text, token.Named) ↔ bytes text < UInt32.size := by
  constructor
  · intro h
    by_cases htext : text = []
    · rw [htext]
      decide
    · obtain ⟨token, htoken, hstop⟩ :=
        exists_stop_eq (Rule.inForce attributes Rule.all) .start 0 htext
      have hlt := (named_iff token).mp (h token htoken)
      rwa [hstop, Nat.zero_add] at hlt
  · intro h token htoken
    have hbounds := bounds_of_mem_scan htoken
    rw [named_iff]
    omega

end Token

namespace Fragment

/-- The fragment that a source holds at a span, none where the source cannot be cut. -/
def cutAt? (source : Text) (category : Category) (span : Span) : Option Fragment :=
  (source.slice? span.start.toNat span.stop.toNat).map fun text => ⟨category, span, text⟩

/-- Fragments cut out of a source, in reverse order, with what one more token adds to them: the last
one is cut anew up to the end of the token when both are plain, and else the token is cut itself. -/
def cutOnto? (scheme : Scheme) (source : Text) (done : List Fragment) (token : Token) :
    Option (List Fragment) :=
  match done with
  | [] => (cutAt? source (scheme.categorize token.kind) token.span).map ([·])
  | last :: others =>
    if last.isPlain && (scheme.categorize token.kind).isPlain then
      (cutAt? source last.category (last.span.cover token.span)).map (· :: others)
    else (cutAt? source (scheme.categorize token.kind) token.span).map (· :: last :: others)

/-- The fragments of a source, each cut out of it at its span. -/
def cut? (scheme : Scheme) (source : Text) : Option (List Fragment) :=
  ((scheme.tokens source).foldlM (cutOnto? scheme source) []).map List.reverse

/-- Fragments in reverse order with one more behind them, joined to the last one when both are
plain. -/
def joinOnto (done : List Fragment) (fragment : Fragment) : List Fragment :=
  match done with
  | [] => [fragment]
  | last :: others =>
    if last.isPlain && fragment.isPlain then last.join fragment :: others
    else fragment :: last :: others

/-- A fragment in front of others is plain or not as the first one that comes of it. -/
theorem isPlain_of_head?_mergeOnto {fragment first : Fragment} {fragments : List Fragment}
    (h : first ∈ (fragment.mergeOnto fragments).head?) : first.isPlain = fragment.isPlain := by
  rcases mergeOnto_eq_or fragment fragments with ⟨heq, -⟩ | ⟨next, rest, -, -, -, heq⟩
  · rw [heq, List.head?_cons, Option.mem_some_iff] at h
    rw [h]
  · rw [heq, List.head?_cons, Option.mem_some_iff] at h
    rw [← h]
    rfl

/-- Joining as the fragments come makes the same of them as joining from the last one on. -/
theorem foldl_joinOnto (last : Fragment) (others fragments : List Fragment) :
    fragments.foldl joinOnto (last :: others) =
      (mergePlain (last :: fragments)).reverse ++ others := by
  induction fragments generalizing last others with
  | nil => rfl
  | cons next rest ih =>
    have hmerge : mergePlain (last :: next :: rest) =
        last.mergeOnto (next.mergeOnto (mergePlain rest)) := rfl
    rw [List.foldl_cons, joinOnto, hmerge]
    by_cases hboth : last.isPlain = true ∧ next.isPlain = true
    · rw [if_pos (by rw [hboth.1, hboth.2]; rfl), ih, ← mergeOnto_join hboth.1 hboth.2]
      rfl
    · rw [if_neg (by rwa [Bool.and_eq_true]), ih]
      rcases mergeOnto_eq_or last (next.mergeOnto (mergePlain rest)) with
        ⟨heq, -⟩ | ⟨first, more, hnext, hlast, hfirst, -⟩
      · rw [heq, List.reverse_cons, List.append_assoc]
        rfl
      · have hhead : first ∈ (next.mergeOnto (mergePlain rest)).head? := by
          rw [hnext]
          rfl
        rw [isPlain_of_head?_mergeOnto hhead] at hfirst
        exact absurd ⟨hlast, hfirst⟩ hboth

/-- Fragments that are joined as they come are those without plain neighbours. -/
theorem reverse_foldl_joinOnto (fragments : List Fragment) :
    (fragments.foldl joinOnto []).reverse = mergePlain fragments := by
  cases fragments with
  | nil => rfl
  | cons first rest =>
    rw [List.foldl_cons, joinOnto, foldl_joinOnto, List.append_nil, List.reverse_reverse]

/-! ### Below the limit -/

/-- The last of the fragments of some text, which come in reverse order, holds the end of the text
and is told by its span. -/
def Placed (taken : Text) (done : List Fragment) : Prop :=
  ∀ last ∈ done.head?, ∃ before, before ++ last.text = taken ∧
    last.span = .ofRange (bytes before) (bytes taken)

section Below

variable {scheme : Scheme} {source taken rest : Text} {done : List Fragment} {token : Token}

/-- A piece of a source below the limit is cut out at its span. -/
theorem cutAt?_append {before piece : Text} (hwhole : before ++ (piece ++ rest) = source)
    (hsize : bytes source < UInt32.size) (category : Category) :
    cutAt? source category (.ofRange (bytes before) (bytes before + bytes piece)) =
      some ⟨category, .ofRange (bytes before) (bytes before + bytes piece), piece⟩ := by
  obtain ⟨hstart, hstop⟩ := Span.ofRange_exact_of_append hwhole hsize
  rw [cutAt?, hstart, hstop, ← hwhole, slice?_append]
  rfl

/-- What a token adds to the fragments in front of it is what its own text adds. -/
theorem cutOnto?_eq_joinOnto (hwhole : taken ++ (token.text ++ rest) = source)
    (hsize : bytes source < UInt32.size)
    (hspan : token.span = .ofRange (bytes taken) (bytes taken + bytes token.text))
    (hdone : Placed taken done) :
    cutOnto? scheme source done token = some (joinOnto done (ofToken scheme token)) ∧
      Placed (taken ++ token.text) (joinOnto done (ofToken scheme token)) := by
  have hsingle : cutAt? source (scheme.categorize token.kind) token.span =
      some (ofToken scheme token) := by
    rw [hspan, cutAt?_append hwhole hsize, ← hspan]
    rfl
  have hplaced (others : List Fragment) :
      Placed (taken ++ token.text) (ofToken scheme token :: others) := by
    intro last hlast
    rw [List.head?_cons, Option.mem_some_iff] at hlast
    rw [← hlast, bytes_append]
    exact ⟨taken, rfl, hspan⟩
  cases done with
  | nil =>
    rw [cutOnto?, hsingle]
    exact ⟨rfl, hplaced []⟩
  | cons last others =>
    rw [cutOnto?, joinOnto]
    change (if (last.isPlain && (ofToken scheme token).isPlain) = true then _ else _) = _ ∧ _
    split
    · obtain ⟨before, rfl, hlast⟩ := hdone last rfl
      have hcover : last.span.cover token.span =
          .ofRange (bytes before) (bytes before + bytes (last.text ++ token.text)) := by
        rw [hlast, hspan, Span.cover_ofRange, bytes_append, bytes_append, Nat.add_assoc]
      have hjoined : before ++ (last.text ++ token.text ++ rest) = source := by
        rw [← hwhole]
        simp only [List.append_assoc]
      refine ⟨?_, fun joined hjoin => ?_⟩
      · rw [hcover, cutAt?_append hjoined hsize, ← hcover]
        rfl
      · rw [List.head?_cons, Option.mem_some_iff] at hjoin
        rw [← hjoin]
        refine ⟨before, (List.append_assoc _ _ _).symm, ?_⟩
        rw [List.append_assoc, bytes_append, ← hcover]
        rfl
    · rw [hsingle]
      exact ⟨rfl, hplaced _⟩

/-- Below the limit the fragments cut out of a source are those joined from its tokens. -/
theorem foldlM_cutOnto? {tokens : List Token}
    (hlaid : Span.Laid (bytes taken) (tokens.map Token.piece))
    (hwhole : taken ++ tokens.flatMap Token.text = source) (hsize : bytes source < UInt32.size)
    (hdone : Placed taken done) :
    tokens.foldlM (cutOnto? scheme source) done =
      some ((tokens.map (ofToken scheme)).foldl joinOnto done) := by
  induction tokens generalizing taken done with
  | nil => rfl
  | cons token tokens ih =>
    obtain ⟨hspan, -, hrest⟩ := hlaid
    rw [List.flatMap_cons] at hwhole
    obtain ⟨hstep, hplaced⟩ := cutOnto?_eq_joinOnto hwhole hsize hspan hdone
    rw [← bytes_append] at hrest
    rw [← List.append_assoc] at hwhole
    rw [List.foldlM_cons, hstep, List.map_cons, List.foldl_cons]
    exact ih hrest hwhole hplaced

end Below

/-- Below the limit the fragments of a text can be cut out of it. -/
theorem cut?_of_lt (scheme : Scheme) {text : Text} (h : bytes text < UInt32.size) :
    cut? scheme text = some (classify scheme text).fragments := by
  have hlaid : Span.Laid (bytes []) ((scheme.tokens text).map Token.piece) :=
    Token.laid_scan _ _ _ _
  have hwhole : [] ++ (scheme.tokens text).flatMap Token.text = text :=
    Token.flatMap_text_lex scheme.attributes text
  have hnone : Placed [] [] := fun last hlast => nomatch hlast
  rw [cut?, foldlM_cutOnto? hlaid hwhole h hnone, Option.map_some, reverse_foldl_joinOnto]
  rfl

/-! ### At any size -/

/-- The fragments cut out in front of an offset, in reverse order, hold as many bytes as the offset
keeps in a span, and the last one ends there. -/
structure Counted (offset : Nat) (done : List Fragment) : Prop where
  /-- The bytes of all fragments. -/
  total : bytes (wholeText done.reverse) = offset % UInt32.size
  /-- The bytes of the last fragment and those in front of it as its span tells. -/
  last : ∀ last ∈ done.head?, last.span.start.toNat + bytes last.text = offset % UInt32.size

section Any

variable {scheme : Scheme} {source : Text} {offset : Nat} {done next : List Fragment}

/-- A fragment that is cut out has the span it is cut at and as many bytes as that covers. -/
theorem span_of_cutAt? {category : Category} {span : Span} {fragment : Fragment}
    (h : cutAt? source category span = some fragment) :
    fragment.span = span ∧ span.start.toNat + bytes fragment.text = span.stop.toNat := by
  obtain ⟨text, htext, rfl⟩ := Option.map_eq_some_iff.mp h
  exact ⟨rfl, add_bytes_of_slice? htext⟩

/-- The text of fragments in reverse order ends with that of the first of them. -/
theorem bytes_wholeText_reverse_cons (fragment : Fragment) (others : List Fragment) :
    bytes (wholeText (fragment :: others).reverse) =
      bytes (wholeText others.reverse) + bytes fragment.text := by
  simp only [wholeText, List.reverse_cons, List.flatMap_append, List.flatMap_cons,
    List.flatMap_nil, List.append_nil, bytes_append]

/-- A fragment that starts where the others end, as spans tell it, and goes up to an offset. -/
theorem counted_cons {fragment : Fragment} {others : List Fragment}
    (hothers : bytes (wholeText others.reverse) = fragment.span.start.toNat)
    (hstop : fragment.span.start.toNat + bytes fragment.text = offset % UInt32.size) :
    Counted offset (fragment :: others) where
  total := by rw [bytes_wholeText_reverse_cons, hothers, hstop]
  last other hother := by
    rw [List.head?_cons, Option.mem_some_iff] at hother
    rw [← hother, hstop]

/-- A token up to an offset adds as many bytes as keep the count, when it can be cut out at all. -/
theorem Counted.step {token : Token} {stop : Nat} (h : Counted offset done)
    (hspan : token.span = .ofRange offset stop)
    (hnext : cutOnto? scheme source done token = some next) : Counted stop next := by
  have hsingle {fragment : Fragment}
      (hcut : cutAt? source (scheme.categorize token.kind) token.span = some fragment) :
      Counted stop (fragment :: done) := by
    obtain ⟨hfragment, hstop⟩ := span_of_cutAt? hcut
    rw [hspan] at hfragment hstop
    refine counted_cons ?_ ?_
    · rw [hfragment, Span.start_ofRange, h.total]
    · rw [hfragment, hstop, Span.stop_ofRange]
  cases done with
  | nil =>
    obtain ⟨fragment, hcut, rfl⟩ := Option.map_eq_some_iff.mp hnext
    exact hsingle hcut
  | cons last others =>
    rw [cutOnto?] at hnext
    split at hnext
    · obtain ⟨fragment, hcut, rfl⟩ := Option.map_eq_some_iff.mp hnext
      obtain ⟨hfragment, hstop⟩ := span_of_cutAt? hcut
      have htotal := h.total
      have hlast := h.last last rfl
      rw [bytes_wholeText_reverse_cons] at htotal
      refine counted_cons ?_ ?_
      · rw [hfragment]
        change _ = last.span.start.toNat
        omega
      · rw [hfragment, hstop, hspan, Span.cover, Span.stop_ofRange]
    · obtain ⟨fragment, hcut, rfl⟩ := Option.map_eq_some_iff.mp hnext
      exact hsingle hcut

/-- The tokens laid behind an offset keep the count as long as they can be cut out. -/
theorem Counted.foldlM {tokens : List Token} (h : Counted offset done)
    (hlaid : Span.Laid offset (tokens.map Token.piece))
    (hnext : tokens.foldlM (cutOnto? scheme source) done = some next) :
    Counted (offset + bytes (tokens.flatMap Token.text)) next := by
  induction tokens generalizing offset done with
  | nil =>
    cases hnext
    exact h
  | cons token tokens ih =>
    obtain ⟨hspan, -, hrest⟩ := hlaid
    rw [List.foldlM_cons] at hnext
    obtain ⟨middle, hmiddle, hnext⟩ := Option.bind_eq_some_iff.mp hnext
    rw [List.flatMap_cons, bytes_append, ← Nat.add_assoc]
    exact ih (h.step hspan hmiddle) hrest hnext

end Any

/-- Fragments that are cut out of a text hold as many bytes as its size leaves modulo the limit. -/
theorem bytes_wholeText_of_cut? {scheme : Scheme} {text : Text} {fragments : List Fragment}
    (h : cut? scheme text = some fragments) :
    bytes (wholeText fragments) = bytes text % UInt32.size := by
  have hlaid : Span.Laid 0 ((scheme.tokens text).map Token.piece) :=
    Token.laid_scan _ _ _ _
  have hwhole : (scheme.tokens text).flatMap Token.text = text :=
    Token.flatMap_text_lex scheme.attributes text
  have hnone : Counted 0 [] := ⟨rfl, fun last hlast => nomatch hlast⟩
  obtain ⟨done, hdone, rfl⟩ := Option.map_eq_some_iff.mp h
  have hcount := (hnone.foldlM hlaid hdone).total
  rwa [hwhole, Nat.zero_add] at hcount

end Fragment

/-! ### Blanks that go up to the limit -/

section Blanks

variable {n : Nat}

/-- Blanks are one byte each. -/
theorem bytes_blanks (n : Nat) : bytes (List.replicate n ' ') = n := by
  rw [bytes_replicate]
  exact Nat.mul_one n

/-- Some blanks are no empty text. -/
theorem blanks_ne_nil (hn : 0 < n) : List.replicate n ' ' ≠ [] := by
  rw [ne_eq, List.replicate_eq_nil_iff]
  omega

/-- A span up to a multiple of the limit ends at zero. -/
theorem Span.ofRange_wrapped (start : Nat) {stop : Nat} (h : stop % UInt32.size = 0) :
    Span.ofRange start stop = ⟨UInt32.ofNat start, 0⟩ := by
  have hstop : (Span.ofRange start stop).stop = 0 :=
    UInt32.toNat_inj.mp ((Span.stop_ofRange start stop).trans h)
  exact congrArg (Span.mk _) hstop

/-- Blanks are taken at once. -/
theorem Token.next_blanks (attributes : Bool) (context : Scan.Context) (start : Nat) (hn : 0 < n) :
    Token.next (Scan.Rule.inForce attributes Scan.Rule.all) context start
      (List.replicate n ' ') =
      ⟨some .whitespace, .whitespace, start, List.replicate n ' ', true⟩ := by
  have hrun : runLength isSpace (List.replicate n ' ') = n := by
    rw [runLength, List.takeWhile_replicate, if_pos (by decide), List.length_replicate]
  have hscan : Scan.Rule.whitespace.scan? context (List.replicate n ' ') =
      some ⟨.whitespace, .ended n⟩ := by
    rw [Scan.Rule.scan?, Scan.Space.scan?, hrun, if_pos hn]
    rfl
  have hfirst : Scan.firstMatch? (Scan.Rule.inForce attributes Scan.Rule.all) context
      (List.replicate n ' ') = some (.whitespace, ⟨.whitespace, .ended n⟩) := by
    refine Scan.firstMatch?_eq_some_iff.mpr
      ⟨[], Scan.Rule.inForce attributes Scan.Rule.all.tail, ?_, hscan, List.forall_mem_nil _⟩
    cases attributes <;> rfl
  rw [Token.next_of_some start hfirst, Scan.Extent.ended, List.take_of_length_le (by simp)]

/-- A text of blanks is one token. -/
theorem Token.lex_blanks (attributes : Bool) (hn : 0 < n) :
    Token.lex attributes (List.replicate n ' ') =
      [⟨some .whitespace, .whitespace, 0, List.replicate n ' ', true⟩] := by
  rw [Token.lex, Token.lexUnder, Token.scan_of_ne_nil _ _ _ (blanks_ne_nil hn),
    Token.next_blanks attributes _ _ hn, List.drop_length, Token.scan_nil]

/-- Blanks behind a number are the second of two tokens. -/
theorem Token.lex_number_blanks (attributes : Bool) (hn : 0 < n) :
    Token.lex attributes ('1' :: List.replicate n ' ') =
      [⟨some .number, .number, 0, ['1'], true⟩,
        ⟨some .whitespace, .whitespace, 1, List.replicate n ' ', true⟩] := by
  have hfirst : Token.next (Scan.Rule.inForce attributes Scan.Rule.all) .start 0
      ('1' :: List.replicate n ' ') = ⟨some .number, .number, 0, ['1'], true⟩ := by
    obtain ⟨m, rfl⟩ := Nat.exists_eq_succ_of_ne_zero (Nat.ne_of_gt hn)
    cases attributes <;> rfl
  have hbehind : ('1' :: List.replicate n ' ').drop ['1'].length = List.replicate n ' ' := rfl
  rw [Token.lex, Token.lexUnder, Token.scan_of_ne_nil _ _ _ (List.cons_ne_nil _ _), hfirst]
  dsimp only
  rw [hbehind, Token.scan_of_ne_nil _ _ _ (blanks_ne_nil hn), Token.next_blanks attributes _ _ hn,
    List.drop_length, Token.scan_nil]
  rfl

/-- Blanks up to a multiple of the limit have an empty span, and nothing is cut out of them. -/
theorem blanks_astray (hn : 0 < n) (hwrap : n % UInt32.size = 0) :
    (Token.lex true (List.replicate n ' ')).map
        (fun token => (token.start, token.stop, token.span)) = [(0, n, ⟨0, 0⟩)] ∧
      Fragment.cut? .literal (List.replicate n ' ') = some [⟨.plain, ⟨0, 0⟩, []⟩] := by
  have hspan : Span.ofRange 0 (0 + bytes (List.replicate n ' ')) = ⟨0, 0⟩ := by
    rw [bytes_blanks, Nat.zero_add]
    exact Span.ofRange_wrapped 0 hwrap
  have hslice : slice? 0 0 (List.replicate n ' ') = some [] :=
    slice?_append [] [] (List.replicate n ' ')
  have hlex := Token.lex_blanks true hn
  have hcut : Fragment.cutOnto? .literal (List.replicate n ' ') []
      ⟨some .whitespace, .whitespace, 0, List.replicate n ' ', true⟩ =
        some [⟨.plain, ⟨0, 0⟩, []⟩] := by
    rw [Fragment.cutOnto?, Token.span, Token.stop, hspan]
    exact congrArg (Option.map _) (congrArg (Option.map _) hslice)
  constructor
  · rw [hlex, List.map_singleton, Token.span, Token.stop, hspan, bytes_blanks, Nat.zero_add]
  · rw [Fragment.cut?, Scheme.tokens]
    change Option.map _ ((Token.lex true _).foldlM _ _) = _
    rw [hlex, List.foldlM_cons, hcut]
    rfl

/-- Blanks up to a multiple of the limit behind a number have a reversed span, which cannot be
cut. -/
theorem number_blanks_astray (hn : 0 < n) (hwrap : (1 + n) % UInt32.size = 0) :
    (Token.lex true ('1' :: List.replicate n ' ')).map Token.span = [⟨0, 1⟩, ⟨1, 0⟩] ∧
      Fragment.cut? .literal ('1' :: List.replicate n ' ') = none := by
  have hspan : Span.ofRange 1 (1 + bytes (List.replicate n ' ')) = ⟨1, 0⟩ := by
    rw [bytes_blanks]
    exact Span.ofRange_wrapped 1 hwrap
  have hnumber : slice? 0 1 ('1' :: List.replicate n ' ') = some ['1'] :=
    slice?_append [] ['1'] (List.replicate n ' ')
  have hlex := Token.lex_number_blanks true hn
  have hfirst : Fragment.cutOnto? .literal ('1' :: List.replicate n ' ') []
      ⟨some .number, .number, 0, ['1'], true⟩ = some [⟨.literal, ⟨0, 1⟩, ['1']⟩] :=
    congrArg (Option.map _) (congrArg (Option.map _) hnumber)
  have hsecond : Fragment.cutOnto? .literal ('1' :: List.replicate n ' ')
      [⟨.literal, ⟨0, 1⟩, ['1']⟩]
      ⟨some .whitespace, .whitespace, 1, List.replicate n ' ', true⟩ = none := by
    rw [Fragment.cutOnto?, Token.span, Token.stop, hspan]
    -- there is no slice from 1 to 0
    rfl
  constructor
  · rw [hlex, List.map_cons, List.map_singleton, Token.span, Token.span, Token.stop, Token.stop,
      hspan]
    rfl
  · rw [Fragment.cut?, Scheme.tokens]
    change Option.map _ ((Token.lex true _).foldlM _ _) = _
    rw [hlex, List.foldlM_cons, hfirst, Option.bind_eq_bind, Option.bind_some, List.foldlM_cons,
      hsecond]
    rfl

end Blanks

/-- The spans of a text tell where its tokens are, and lead back to its fragments and to the text
itself, exactly when the size of the text is below 2^32. What can be cut out of a larger text has as
many bytes as its size leaves modulo 2^32. -/
theorem spans_lead_back_iff (text : Text) :
    (∀ attributes, (∀ token ∈ Token.lex attributes text, token.Named) ↔
        bytes text < UInt32.size) ∧
      ∀ scheme,
        (Fragment.cut? scheme text = some (classify scheme text).fragments ↔
          bytes text < UInt32.size) ∧
        ((∃ fragments ∈ Fragment.cut? scheme text, Fragment.wholeText fragments = text) ↔
          bytes text < UInt32.size) ∧
        ∀ fragments ∈ Fragment.cut? scheme text,
          bytes (Fragment.wholeText fragments) = bytes text % UInt32.size := by
  refine ⟨fun attributes => Token.named_lex_iff attributes text, fun scheme => ?_⟩
  have hcount : ∀ fragments ∈ Fragment.cut? scheme text,
      bytes (Fragment.wholeText fragments) = bytes text % UInt32.size :=
    fun fragments => Fragment.bytes_wholeText_of_cut?
  have hback : (∃ fragments ∈ Fragment.cut? scheme text, Fragment.wholeText fragments = text) ↔
      bytes text < UInt32.size := by
    constructor
    · rintro ⟨fragments, hfragments, hwhole⟩
      have hbytes := hcount fragments hfragments
      rw [hwhole] at hbytes
      rw [hbytes]
      exact Nat.mod_lt _ (by decide)
    · intro h
      exact ⟨_, Fragment.cut?_of_lt scheme h, Fragment.wholeText_classify scheme text⟩
  refine ⟨⟨fun h => ?_, Fragment.cut?_of_lt scheme⟩, hback, hcount⟩
  exact hback.mp ⟨_, h, Fragment.wholeText_classify scheme text⟩

/-- At the limit a token of blanks has an empty span, and all of its text is lost; behind a number
its span is reversed and cannot be cut. -/
theorem spans_lead_astray :
    (Token.lex true (List.replicate UInt32.size ' ')).map
        (fun token => (token.start, token.stop, token.span)) = [(0, UInt32.size, ⟨0, 0⟩)] ∧
      (¬ ∀ token ∈ Token.lex true (List.replicate UInt32.size ' '), token.Named) ∧
      (∃ fragments, Fragment.cut? .literal (List.replicate UInt32.size ' ') = some fragments ∧
        Fragment.wholeText fragments ≠ List.replicate UInt32.size ' ') ∧
      (Token.lex true ('1' :: List.replicate (UInt32.size - 1) ' ')).map Token.span =
        [⟨0, 1⟩, ⟨1, 0⟩] ∧
      Fragment.cut? .literal ('1' :: List.replicate (UInt32.size - 1) ' ') = none := by
  have hblanks : 0 < UInt32.size := by
    decide
  have hbehind : 0 < UInt32.size - 1 := by
    decide
  obtain ⟨hspan, hcut⟩ := blanks_astray hblanks (Nat.mod_self _)
  obtain ⟨hspans, hnone⟩ := number_blanks_astray hbehind (by decide)
  refine ⟨hspan, ?_, ⟨_, hcut, ?_⟩, hspans, hnone⟩
  · rw [Token.named_lex_iff, bytes_blanks]
    exact Nat.lt_irrefl _
  · exact (blanks_ne_nil hblanks).symm

end CodeTint
