import CodeTint.Proofs.Standalone
import Mathlib.Data.List.Infix

/-!
# Raw literals carry any payload

A search for a pattern stops at its first occurrence. The terminator of a raw literal holds one
closing parenthesis, in front, unless the delimiter holds another, so no occurrence of it reaches
from the payload into the terminator itself. A payload without the terminator is therefore carried
unchanged, and what a closed raw literal carries holds no earlier terminator.
-/

namespace CodeTint

namespace Text

/-- Where every occurrence of a pattern lies at or behind a place at which it occurs, the search
stops there. -/
theorem indexFrom?_of_first {pattern front back : Text} (passed : Nat)
    (hfirst : ∀ earlier, earlier ++ pattern <+: front ++ (pattern ++ back) →
      front.length ≤ earlier.length) :
    indexFrom? pattern passed (front ++ (pattern ++ back)) = some (passed + front.length) := by
  induction front generalizing passed with
  | nil =>
    cases pattern with
    | nil => cases back <;> rfl
    | cons c pattern =>
      have hbegin : c :: pattern <+: c :: (pattern ++ back) := ⟨back, rfl⟩
      exact if_pos (List.isPrefixOf_iff_prefix.mpr hbegin)
  | cons c front ih =>
    have hno : ¬ pattern.isPrefixOf (c :: (front ++ (pattern ++ back))) = true := by
      intro hbegin
      have hle := hfirst [] (List.isPrefixOf_iff_prefix.mp hbegin)
      exact Nat.not_succ_le_zero _ hle
    have hrest : ∀ earlier, earlier ++ pattern <+: front ++ (pattern ++ back) →
        front.length ≤ earlier.length := by
      intro earlier hearlier
      have hle := hfirst (c :: earlier) ((List.prefix_cons_inj c).mpr hearlier)
      exact Nat.le_of_succ_le_succ hle
    rw [List.cons_append, indexFrom?, if_neg hno, ih (passed + 1) hrest, List.length_cons]
    congr 1
    omega

/-- A search stops at an occurrence with none in front of it. -/
theorem first_of_indexFrom? {pattern text : Text} {passed index : Nat}
    (h : indexFrom? pattern passed text = some index) :
    ∃ front back, text = front ++ (pattern ++ back) ∧ index = passed + front.length ∧
      ∀ earlier, earlier ++ pattern <+: text → front.length ≤ earlier.length := by
  induction text generalizing passed with
  | nil =>
    simp only [indexFrom?] at h
    split at h
    · next hempty =>
      cases h
      rw [List.isEmpty_iff] at hempty
      exact ⟨[], [], by rw [hempty]; rfl, rfl, fun _ _ => Nat.zero_le _⟩
    · cases h
  | cons c rest ih =>
    simp only [indexFrom?] at h
    split at h
    · next hbegin =>
      cases h
      obtain ⟨back, hback⟩ := List.isPrefixOf_iff_prefix.mp hbegin
      exact ⟨[], back, hback.symm, rfl, fun _ _ => Nat.zero_le _⟩
    · next hno =>
      obtain ⟨front, back, hrest, hindex, hfirst⟩ := ih h
      refine ⟨c :: front, back, by rw [hrest]; rfl, by rw [hindex, List.length_cons]; omega, ?_⟩
      intro earlier hearlier
      cases earlier with
      | nil => exact absurd (List.isPrefixOf_iff_prefix.mpr hearlier) hno
      | cons d earlier =>
        exact Nat.succ_le_succ (hfirst earlier (List.cons_prefix_cons.mp hearlier).2)

end Text

namespace Scan.RawString

/-- A raw literal with its delimiter on both sides of the payload. -/
def literal (delimiter payload : Text) : Text :=
  'R' :: '"' :: delimiter ++ '(' :: payload ++ terminator delimiter

/-- In front of a terminator whose delimiter holds no closing parenthesis, a payload that holds no
terminator is not passed over. -/
theorem terminator_first {delimiter payload : Text} (hclose : ')' ∉ delimiter)
    (hpayload : ¬ terminator delimiter <:+: payload) (back earlier : Text)
    (hearlier : earlier ++ terminator delimiter <+: payload ++ (terminator delimiter ++ back)) :
    payload.length ≤ earlier.length := by
  obtain ⟨tail, htail⟩ := hearlier
  rw [List.append_assoc] at htail
  rcases List.append_eq_append_iff.mp htail with ⟨inside, rfl, hinside⟩ | ⟨more, rfl, -⟩
  · cases inside with
    | nil => rw [List.append_nil]
    | cons c inside =>
      exfalso
      rcases List.append_eq_append_iff.mp hinside with ⟨more, hmore, -⟩ | ⟨more, hmore, hback⟩
      · exact hpayload ⟨earlier, more, by rw [hmore, List.append_assoc]⟩
      · cases more with
        | nil =>
          rw [List.append_nil] at hmore
          exact hpayload ⟨earlier, [], by rw [hmore, List.append_nil]⟩
        | cons d more =>
          -- the occurrence holds the parenthesis with which the terminator itself begins
          have hd : ')' = d := (List.cons.inj hback).1
          have hsame : delimiter ++ ['"'] = inside ++ d :: more := (List.cons.inj hmore).2
          have hin : d ∈ delimiter ++ ['"'] := by
            rw [hsame]
            exact List.mem_append_right inside List.mem_cons_self
          rw [← hd, List.mem_append, List.mem_singleton] at hin
          exact hin.elim hclose (by decide)
  · rw [List.length_append]
    exact Nat.le_add_right _ _

/-- A raw literal is its opener, its delimiter, the opening parenthesis, and what follows. -/
theorem literal_append (delimiter payload back : Text) :
    literal delimiter payload ++ back =
      'R' :: '"' :: (delimiter ++ '(' :: (payload ++ (terminator delimiter ++ back))) := by
  simp [literal]

/-- The number of characters of a raw literal. -/
theorem length_literal (delimiter payload : Text) :
    (literal delimiter payload).length =
      2 + (delimiter.length + 1 + payload.length + (terminator delimiter).length) := by
  simp only [literal, List.length_append, List.length_cons]
  omega

/-- A raw literal whose payload comes before every occurrence of the terminator is taken whole. -/
theorem scan?_literal {delimiter payload back : Text} (hopen : '(' ∉ delimiter)
    (hfirst : ∀ earlier, earlier ++ terminator delimiter <+:
      payload ++ (terminator delimiter ++ back) → payload.length ≤ earlier.length) :
    scan? (literal delimiter payload ++ back) =
      some (.ended (literal delimiter payload).length) := by
  rw [literal_append, scan?_behind.answers, reach, closeLength?_of_open hopen, Text.indexOf?,
    Text.indexFrom?_of_first 0 hfirst, Option.map_some, Nat.zero_add, length_literal]

/-- What is taken as a closed raw literal is one, and the terminator does not occur in front of
its end. -/
theorem exists_literal_of_scan? {text : Text} {extent : Extent} (h : scan? text = some extent)
    (hclosed : extent.closed = true) :
    ∃ delimiter payload back, text = literal delimiter payload ++ back ∧ '(' ∉ delimiter ∧
      extent.length = (literal delimiter payload).length ∧
      ∀ earlier, earlier ++ terminator delimiter <+: payload ++ (terminator delimiter ++ back) →
        payload.length ≤ earlier.length := by
  obtain ⟨rest, rfl⟩ := scan?_behind.pair_prefix h
  rw [List.cons_append, List.cons_append, List.nil_append, scan?_behind.answers] at h
  cases h
  cases hlength : closeLength? rest with
  | none =>
    rw [reach, hlength] at hclosed
    cases hclosed
  | some length =>
    by_cases hrest : '(' ∈ rest
    · obtain ⟨delimiter, body, rfl, hdelimiter⟩ := List.eq_append_cons_of_mem hrest
      have hclose := hlength
      rw [closeLength?_of_open hdelimiter, Option.map_eq_some_iff] at hclose
      obtain ⟨index, hindex, rfl⟩ := hclose
      obtain ⟨payload, back, rfl, rfl, hfirst⟩ := Text.first_of_indexFrom? hindex
      refine ⟨delimiter, payload, back, (literal_append _ _ _).symm, hdelimiter, ?_, hfirst⟩
      rw [reach, hlength, length_literal, Nat.zero_add]
      rfl
    · rw [closeLength?_of_not_mem hrest] at hlength
      cases hlength

/-- The letter R and a quote are left to the raw literals. -/
theorem firstMatch?_opener (attributes : Bool) (context : Context) (rest : Text) :
    firstMatch? (Rule.inForce attributes Rule.all) context ('R' :: '"' :: rest) =
      some (.rawString, ⟨.rawString, reach rest⟩) := by
  cases attributes <;> rfl

end Scan.RawString

namespace Token

open Scan Text RawString

/-- A raw literal at the front of a text is its first token. -/
theorem next_literal (attributes : Bool) {delimiter payload back : Text} (hopen : '(' ∉ delimiter)
    (hfirst : ∀ earlier, earlier ++ terminator delimiter <+:
      payload ++ (terminator delimiter ++ back) → payload.length ≤ earlier.length) :
    next (Rule.inForce attributes Rule.all) .start 0 (literal delimiter payload ++ back) =
      ⟨some .rawString, .rawString, 0, literal delimiter payload, true⟩ := by
  have hscan := scan?_literal hopen hfirst
  rw [literal_append, scan?_behind.answers, Option.some.injEq] at hscan
  have hmatch := firstMatch?_opener attributes .start
    (delimiter ++ '(' :: (payload ++ (terminator delimiter ++ back)))
  rw [hscan, ← literal_append] at hmatch
  rw [next_of_some 0 hmatch, Extent.ended, List.take_left]

/-- A closed raw literal of a run has its delimiter on both sides, and the terminator occurs at its
end only. -/
theorem exists_literal_of_mem_scan {table : List Rule} {context : Context} {start : Nat}
    {text : Text} {token : Token} (htoken : token ∈ scan table context start text)
    (hkind : token.kind = .rawString) (hclosed : token.closed = true) :
    ∃ delimiter payload, '(' ∉ delimiter ∧ token.text = literal delimiter payload ∧
      ∀ earlier later, payload ++ terminator delimiter =
        earlier ++ (terminator delimiter ++ later) → later = [] := by
  obtain ⟨front, rest, -, -, rfl⟩ := exists_next_of_mem_scan htoken
  obtain ⟨extent, hextent, -, heq⟩ := exists_reach_of_kind .rawString (congrArg Rule.ofKind? hkind)
  rw [heq] at hclosed ⊢
  obtain ⟨delimiter, payload, back, rfl, hopen, hlength, hfirst⟩ :=
    exists_literal_of_scan? hextent hclosed
  refine ⟨delimiter, payload, hopen, ?_, ?_⟩
  · rw [hlength, List.take_left]
  · intro earlier later hwhole
    have hle := hfirst earlier ⟨later ++ back, by
      rw [List.append_assoc, ← List.append_assoc _ later, ← List.append_assoc earlier, ← hwhole,
        List.append_assoc]⟩
    have hsize := congrArg List.length hwhole
    simp only [List.length_append] at hsize
    exact List.eq_nil_of_length_eq_zero (by omega)

/-- A delimiter without parentheses carries every payload that does not hold the terminator: the
literal is the first token whatever follows it, and no warning is about it. In the text of a raw
literal without a warning the terminator occurs at the end only. -/
theorem lex_raw_literal (attributes : Bool) :
    (∀ delimiter payload back, '(' ∉ delimiter → ')' ∉ delimiter →
        ¬ terminator delimiter <:+: payload →
        bytes (literal delimiter payload ++ back) < UInt32.size →
          ∃ token tokens, lex attributes (literal delimiter payload ++ back) = token :: tokens ∧
            token.kind = .rawString ∧ token.text = literal delimiter payload ∧
            token.span.start.toNat = 0 ∧
            token.span.stop.toNat = bytes (literal delimiter payload) ∧
            ¬ token.IsReported (lex attributes (literal delimiter payload ++ back))) ∧
      ∀ text, ∀ token ∈ lex attributes text, token.kind = .rawString →
        ¬ token.IsReported (lex attributes text) →
          ∃ delimiter payload, '(' ∉ delimiter ∧ token.text = literal delimiter payload ∧
            ∀ earlier later, payload ++ terminator delimiter =
              earlier ++ (terminator delimiter ++ later) → later = [] := by
  constructor
  · intro delimiter payload back hopen hclose hpayload hsize
    have hnext := next_literal attributes hopen (terminator_first hclose hpayload back)
    have hne : literal delimiter payload ++ back ≠ [] := by
      rw [literal_append]
      exact List.cons_ne_nil _ _
    have hlex := scan_of_ne_nil (Rule.inForce attributes Rule.all) .start 0 hne
    rw [hnext] at hlex
    have hmem : ⟨some .rawString, .rawString, 0, literal delimiter payload, true⟩ ∈
        lex attributes (literal delimiter payload ++ back) := by
      rw [lex, lexUnder, hlex]
      exact List.mem_cons_self
    rw [bytes_append] at hsize
    have hstart : 0 < UInt32.size := by
      decide
    have hspan := Span.ofRange_exact hstart (Nat.lt_of_add_right_lt hsize)
    refine ⟨_, _, hlex, rfl, rfl, hspan.1, ?_, ?_⟩
    · rw [span, stop, Nat.zero_add]
      exact hspan.2
    · rw [lex, lexUnder, isReported_iff (by rwa [Nat.zero_add, bytes_append]) hmem]
      exact Bool.true_eq_false.mp
  · intro text token htoken hkind hreported
    have hclosed : token.closed = true := by
      cases hopen : token.closed with
      | true => rfl
      | false =>
        exact absurd ⟨_, Diagnostic.mem_ofTokens_iff.mpr ⟨token, htoken, hopen, rfl⟩, rfl⟩
          hreported
    exact exists_literal_of_mem_scan htoken hkind hclosed

/-- A payload with the terminator of another delimiter, a comment opener and a backslash. -/
theorem lex_raw_literal_mixed :
    '(' ∉ ['x'] ∧ ')' ∉ ['x'] ∧ ¬ terminator ['x'] <:+: ")\"/*\\)y\"(".toList ∧
      bytes "R\"x()\"/*\\)y\"()x\";".toList < UInt32.size ∧
      (∃ token tokens, lex true "R\"x()\"/*\\)y\"()x\";".toList = token :: tokens ∧
        token.kind = .rawString ∧ token.text = "R\"x()\"/*\\)y\"()x\"".toList ∧
        token.span.start.toNat = 0 ∧ token.span.stop.toNat = 16 ∧
        ¬ token.IsReported (lex true "R\"x()\"/*\\)y\"()x\";".toList)) ∧
      ∃ delimiter payload, '(' ∉ delimiter ∧
        "R\"x()\"/*\\)y\"()x\"".toList = literal delimiter payload ∧
        ∀ earlier later, payload ++ terminator delimiter =
          earlier ++ (terminator delimiter ++ later) → later = [] := by
  have hliteral : literal ['x'] ")\"/*\\)y\"(".toList = "R\"x()\"/*\\)y\"()x\"".toList := by
    decide
  have hwhole : literal ['x'] ")\"/*\\)y\"(".toList ++ [';'] =
      "R\"x()\"/*\\)y\"()x\";".toList := by
    decide
  have hbytes : bytes "R\"x()\"/*\\)y\"()x\"".toList = 16 := by
    decide
  have hpayload : ¬ terminator ['x'] <:+: ")\"/*\\)y\"(".toList := by
    decide
  have hsize : bytes "R\"x()\"/*\\)y\"()x\";".toList < UInt32.size := by
    decide
  obtain ⟨hcarries, hends⟩ := lex_raw_literal true
  have hfirst := hcarries ['x'] _ [';'] (by decide) (by decide) hpayload (hwhole ▸ hsize)
  rw [hwhole, hliteral, hbytes] at hfirst
  obtain ⟨token, tokens, hlex, hkind, htext, hstart, hstop, hquiet⟩ := hfirst
  have hclosed := hends _ token (hlex ▸ List.mem_cons_self) hkind hquiet
  rw [htext] at hclosed
  exact ⟨by decide, by decide, hpayload, hsize,
    ⟨token, tokens, hlex, hkind, htext, hstart, hstop, hquiet⟩, hclosed⟩

/-- A delimiter with a closing parenthesis can close its literal early. -/
example : scan? (literal ['"', ')'] [')', '"']) = some (.ended 9) ∧
    (literal ['"', ')'] [')', '"']).length = 11 := by
  decide

end Token

end CodeTint
