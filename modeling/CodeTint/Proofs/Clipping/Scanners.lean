import CodeTint.Proofs.Clipping
import CodeTint.Scan.Attribute
import CodeTint.Scan.Comment
import CodeTint.Scan.Directive
import CodeTint.Scan.Quoted
import CodeTint.Scan.RawString
import CodeTint.Scan.Space
import CodeTint.Scan.Word

/-!
# The scanners obey the law of clipping

Runs, line comments, directives and words count as closed wherever the text ends. Attributes,
block comments, raw strings and quoted literals stay open until their closing delimiter has been
read, so a cut in front of it leaves them open.
-/

namespace CodeTint.Scan

/-- Whitespace obeys the law; only no text at all is too short. -/
theorem Space.clipLaw : ClipLaw true (· = []) Space.scan? where
  declines {text more} h := by
    have hr := Text.runLength_clip Text.isSpace text more
    simp only [scan?] at h ⊢
    split at h
    · cases h
    · rw [if_neg (by omega)]
  clips {text more extent} h := by
    have hr := Text.runLength_clip Text.isSpace text more
    simp only [scan?] at h ⊢
    split at h
    · next hpos =>
      cases h
      by_cases ht : text = []
      · subst ht
        exact Or.inr ⟨hpos, rfl⟩
      · have hlen := List.length_pos_iff.mpr ht
        left
        rw [if_pos (by omega), Extent.clip_ended, ← hr]
    · cases h

/-- Words obey the law; only no text at all is too short. -/
theorem Word.clipLaw : ClipLaw true (· = []) Word.scan? where
  declines {text more} h := by
    cases text with
    | nil => rfl
    | cons c rest =>
      simp only [List.cons_append, scan?] at h ⊢
      split at h
      · cases h
      · next hc => rw [if_neg hc]
  clips {text more extent} h := by
    cases text with
    | nil => exact Or.inr ⟨(Word.scan?_fits h).positive, rfl⟩
    | cons c rest =>
      have hr := Text.runLength_clip Text.isWordPart rest more
      simp only [List.cons_append, scan?] at h ⊢
      split at h
      · next hc =>
        cases h
        left
        rw [if_pos hc, Extent.clip_ended, List.length_cons, Nat.add_min_add_right, ← hr]
      · cases h

/-- Reach of the line comment with this text behind its opener. -/
def Comment.lineReach (body : Text) : Extent :=
  .ended (Text.runLength (· ≠ '\n') ('/' :: '/' :: body))

/-- Two slashes open a line comment. -/
theorem Comment.line?_behind : AnswersBehind '/' '/' line? lineReach := by
  refine ⟨fun _ => rfl, fun text htext => ?_⟩
  unfold line?
  split
  · next body => exact (htext body rfl).elim
  · rfl

/-- Line comments obey the law. -/
theorem Comment.clipLaw_line : ClipLaw true (EndsInside [['/', '/']]) Comment.line? := by
  refine ClipLaw.ofPair line?_behind ?_ ?_
  · intro body
    simp [lineReach, Text.runLength, Extent.ended]
  · intro body more
    have hr := Text.runLength_clip (· ≠ '\n') ('/' :: '/' :: body) more
    rw [lineReach, lineReach, Extent.clip_ended, hr]
    rfl

/-- Reach of the block comment with this text behind its opener. -/
def Comment.blockReach (body : Text) : Extent :=
  match Text.indexOf? ['*', '/'] body with
  | some inner => .ended (inner + 4)
  | none => .openEnded ('/' :: '*' :: body)

/-- A slash and an asterisk open a block comment. -/
theorem Comment.block?_behind : AnswersBehind '/' '*' block? blockReach := by
  refine ⟨fun _ => rfl, fun text htext => ?_⟩
  unfold block?
  split
  · next body => exact (htext body rfl).elim
  · rfl

/-- Block comments obey the law and stay open until they are closed. -/
theorem Comment.clipLaw_block : ClipLaw false (EndsInside [['/', '*']]) Comment.block? := by
  refine ClipLaw.ofPair block?_behind ?_ ?_
  · intro body
    unfold blockReach
    split
    · exact Nat.le_add_left 2 _
    · exact Nat.le_add_left 2 _
  · intro body more
    have hi := Text.indexOf?_clip ['*', '/'] body more
    rw [blockReach, blockReach, hi]
    cases Text.indexOf? ['*', '/'] (body ++ more) with
    | none => exact (Extent.clip_openEnded ('/' :: '*' :: body) more).symm
    | some inner =>
      rw [Option.filter_some]
      by_cases hle : inner + ['*', '/'].length ≤ body.length
      · rw [if_pos (decide_eq_true hle)]
        exact (Extent.clip_of_le false (Nat.add_le_add_right hle 2)).symm
      · rw [if_neg (mt of_decide_eq_true hle)]
        exact (Extent.clip_of_lt false (Nat.add_lt_add_right (Nat.lt_of_not_le hle) 2)).symm

/-- A closed attribute body has at least its closing brackets. -/
theorem Attribute.add_two_le_length_bodyFrom (outer taken : Nat) (text : Text)
    (h : (bodyFrom outer taken text).closed = true) :
    taken + 2 ≤ (bodyFrom outer taken text).length := by
  fun_induction bodyFrom outer taken text with
  | case1 => cases h
  | case2 outer taken rest ih =>
    have hi := ih h
    omega
  | case3 taken rest => exact Nat.le_refl _
  | case4 taken rest outer ih =>
    have hi := ih h
    omega
  | case5 outer taken c rest _ _ ih =>
    have hi := ih h
    omega

/-- An attribute body takes at least the first character. -/
theorem Attribute.lt_length_bodyFrom (outer taken : Nat) {text : Text} (h : text ≠ []) :
    taken < (bodyFrom outer taken text).length := by
  fun_cases bodyFrom outer taken text with
  | case1 => exact (h rfl).elim
  | case2 => exact Nat.lt_of_lt_of_le (by omega) (bodyFrom_bound (outer + 1) (taken + 2) _).1
  | case3 => exact Nat.lt_add_of_pos_right Nat.two_pos
  | case4 => exact Nat.lt_of_lt_of_le (by omega) (bodyFrom_bound _ (taken + 2) _).1
  | case5 => exact Nat.lt_of_lt_of_le (by omega) (bodyFrom_bound outer (taken + 1) _).1

/-- The extent of an attribute body in a text cut short. -/
theorem Attribute.bodyFrom_clip (outer taken : Nat) (text more : Text) :
    bodyFrom outer taken text =
      (bodyFrom outer taken (text ++ more)).clip (text.length + taken) false := by
  fun_induction bodyFrom outer taken text with
  | case1 outer taken =>
    rw [List.nil_append, List.length_nil, Nat.zero_add, Extent.clip_open
      (bodyFrom_bound outer taken more).1 fun hc => ?_]
    have hi := add_two_le_length_bodyFrom outer taken more hc
    omega
  | case2 outer taken rest ih =>
    rw [ih]
    simp only [List.cons_append, List.length_cons, bodyFrom]
    congr 1
    omega
  | case3 taken rest =>
    simp only [List.cons_append, List.length_cons, bodyFrom]
    rw [Extent.clip_of_le]
    dsimp only
    omega
  | case4 taken rest outer ih =>
    rw [ih]
    simp only [List.cons_append, List.length_cons, bodyFrom]
    congr 1
    omega
  | case5 outer taken c rest hopen hclose ih =>
    cases rest with
    | nil =>
      -- the cut may split a pair, and what is left of the pair is an open body
      rw [bodyFrom, List.cons_append, List.nil_append, List.length_singleton, Nat.add_comm 1,
        Extent.clip_open (lt_length_bodyFrom outer taken (List.cons_ne_nil c more)) fun hc => ?_]
      exact add_two_le_length_bodyFrom outer taken (c :: more) hc
    | cons d rest =>
      have hstep : bodyFrom outer taken (c :: d :: (rest ++ more)) =
          bodyFrom outer (taken + 1) (d :: (rest ++ more)) := by
        rw [bodyFrom]
        · rintro body hc hbody
          exact hopen rest hc (by rw [(List.cons.inj hbody).1])
        · rintro body hc hbody
          exact hclose rest hc (by rw [(List.cons.inj hbody).1])
      rw [List.cons_append, List.cons_append, hstep, ih, List.cons_append]
      simp only [List.length_cons]
      congr 1
      omega

/-- Two brackets open an attribute. -/
theorem Attribute.scan?_behind : AnswersBehind '[' '[' scan? (bodyFrom 0 2) := by
  refine ⟨fun _ => rfl, fun text htext => ?_⟩
  unfold scan?
  split
  · next body => exact (htext body rfl).elim
  · rfl

/-- Attributes obey the law and stay open until their brackets balance. -/
theorem Attribute.clipLaw : ClipLaw false (EndsInside [['[', '[']]) Attribute.scan? := by
  refine ClipLaw.ofPair scan?_behind ?_ ?_
  · intro body
    exact (bodyFrom_bound 0 2 body).1
  · intro body more
    exact bodyFrom_clip 0 2 body more

/-- A directive in a text cut short ends where it did or at the cut. -/
theorem Directive.lineFrom_clip (previous : Char) (taken : Nat) (text more : Text) :
    lineFrom previous taken text =
      min (lineFrom previous taken (text ++ more)) (text.length + taken) := by
  induction text generalizing previous taken with
  | nil =>
    have hb := (lineFrom_bound previous taken more).1
    simp only [List.nil_append, List.length_nil, lineFrom]
    omega
  | cons c rest ih =>
    simp only [List.cons_append, List.length_cons, lineFrom]
    split
    · omega
    · rw [ih c (taken + 1)]
      omega

/-- A directive that runs over a newline has a backslash in front of it. -/
theorem Directive.getLast_of_lineFrom (previous : Char) (taken : Nat) (text more : Text)
    (h : text.length + taken < lineFrom previous taken (text ++ '\n' :: more)) :
    (previous :: text).getLast? = some '\\' := by
  induction text generalizing previous taken with
  | nil =>
    simp only [List.nil_append, List.length_nil, lineFrom] at h
    split at h
    · omega
    · next hc =>
      have hp : previous = '\\' := by simpa using hc
      rw [hp, List.getLast?_singleton]
  | cons c rest ih =>
    simp only [List.cons_append, List.length_cons, lineFrom] at h
    split at h
    · omega
    · rw [List.getLast?_cons_cons]
      exact ih c (taken + 1) (by omega)

/-- Directives obey the law; only no text at all is too short. -/
theorem Directive.clipLaw (lineBlank : Bool) :
    ClipLaw true (EndsInside [['#']]) (Directive.scan? lineBlank) where
  declines {text more} h := by
    unfold scan?
    split
    · next rest =>
      simp only [List.cons_append, scan?] at h
      split at h
      · cases h
      · next hblank => rw [if_neg hblank]
    · rfl
  clips {text more extent} h := by
    cases text with
    | nil =>
      exact Or.inr ⟨(scan?_fits h).positive, ['#'], List.mem_singleton_self _, List.nil_prefix,
        (List.cons_ne_nil _ _).symm⟩
    | cons c rest =>
      simp only [List.cons_append] at h
      unfold scan? at h
      split at h
      · next body hbody =>
        cases hbody
        split at h
        · next hblank =>
          cases h
          left
          rw [Extent.clip_ended, List.length_cons, ← lineFrom_clip, scan?, if_pos hblank]
        · cases h
      · cases h

/-- A delimiter holds no opening parenthesis. -/
theorem RawString.ne_paren_of_not_mem {delimiter : Text} (h : '(' ∉ delimiter) :
    ∀ c ∈ delimiter, decide (c ≠ '(') = true :=
  fun _ hc => decide_eq_true fun he => h (he ▸ hc)

/-- Without an opening parenthesis a raw literal does not close. -/
theorem RawString.closeLength?_of_not_mem {text : Text} (h : '(' ∉ text) :
    closeLength? text = none := by
  have hd : text.dropWhile (· ≠ '(') = [] := by
    rw [← List.append_nil text, List.dropWhile_append_of_pos (ne_paren_of_not_mem h)]
    rfl
  simp only [closeLength?, hd]

/-- Behind the opening parenthesis a raw literal closes at the first terminator. -/
theorem RawString.closeLength?_of_open {delimiter : Text} (h : '(' ∉ delimiter) (body : Text) :
    closeLength? (delimiter ++ '(' :: body) =
      (Text.indexOf? (terminator delimiter) body).map fun payload =>
        delimiter.length + 1 + payload + (terminator delimiter).length := by
  have hp := ne_paren_of_not_mem h
  have ht : (delimiter ++ '(' :: body).takeWhile (· ≠ '(') = delimiter := by
    rw [List.takeWhile_append_of_pos hp, List.takeWhile_cons_of_neg (by decide), List.append_nil]
  have hd : (delimiter ++ '(' :: body).dropWhile (· ≠ '(') = '(' :: body := by
    rw [List.dropWhile_append_of_pos hp, List.dropWhile_cons_of_neg (by decide)]
  simp only [closeLength?, ht, hd]

/-- A raw literal in a text cut short closes where it did when that is before the cut, and does
not close otherwise. -/
theorem RawString.closeLength?_clip (text more : Text) :
    closeLength? text = (closeLength? (text ++ more)).filter (· ≤ text.length) := by
  by_cases htext : '(' ∈ text
  · obtain ⟨delimiter, body, rfl, hdelimiter⟩ := List.eq_append_cons_of_mem htext
    rw [List.append_assoc, List.cons_append, closeLength?_of_open hdelimiter,
      closeLength?_of_open hdelimiter, Text.indexOf?_clip _ body more]
    cases Text.indexOf? (terminator delimiter) (body ++ more) with
    | none => rfl
    | some payload =>
      rw [Option.map_some, Option.filter_some, Option.filter_some, List.length_append,
        List.length_cons]
      by_cases hle : payload + (terminator delimiter).length ≤ body.length
      · rw [if_pos (decide_eq_true hle), if_pos (decide_eq_true (by omega)), Option.map_some]
      · rw [if_neg (mt of_decide_eq_true hle), if_neg (mt of_decide_eq_true (by omega)),
          Option.map_none]
  · rw [closeLength?_of_not_mem htext]
    by_cases hmore : '(' ∈ more
    · -- the delimiter itself reaches beyond the cut
      obtain ⟨delimiter, body, rfl, hdelimiter⟩ := List.eq_append_cons_of_mem hmore
      have hwhole : '(' ∉ text ++ delimiter := by
        rw [List.mem_append]
        exact fun h => h.elim htext hdelimiter
      rw [← List.append_assoc, closeLength?_of_open hwhole, eq_comm, Option.filter_eq_none_iff]
      intro length hlength
      obtain ⟨payload, -, rfl⟩ := Option.map_eq_some_iff.mp hlength
      rw [List.length_append, decide_eq_true_eq]
      omega
    · have hwhole : '(' ∉ text ++ more := by
        rw [List.mem_append]
        exact fun h => h.elim htext hmore
      rw [closeLength?_of_not_mem hwhole]
      rfl

/-- Reach of the raw literal with this text behind its opener. -/
def RawString.reach (rest : Text) : Extent :=
  match closeLength? rest with
  | some length => .ended (2 + length)
  | none => .openEnded ('R' :: '"' :: rest)

/-- The letter R and a quote open a raw literal. -/
theorem RawString.scan?_behind : AnswersBehind 'R' '"' scan? reach := by
  refine ⟨fun _ => rfl, fun text htext => ?_⟩
  unfold scan?
  split
  · next rest => exact (htext rest rfl).elim
  · rfl

/-- Raw literals obey the law and stay open until their terminator has been read. -/
theorem RawString.clipLaw : ClipLaw false (EndsInside [['R', '"']]) RawString.scan? := by
  refine ClipLaw.ofPair scan?_behind ?_ ?_
  · intro rest
    unfold reach
    split
    · exact Nat.le_add_right 2 _
    · exact Nat.le_add_left 2 _
  · intro rest more
    rw [reach, reach, closeLength?_clip rest more]
    cases closeLength? (rest ++ more) with
    | none => exact (Extent.clip_openEnded ('R' :: '"' :: rest) more).symm
    | some length =>
      rw [Option.filter_some]
      by_cases hle : length ≤ rest.length
      · rw [if_pos (decide_eq_true hle), Extent.clip_of_le]
        simp only [Extent.ended]
        omega
      · rw [if_neg (mt of_decide_eq_true hle), Extent.clip_of_lt]
        · rfl
        · simp only [Extent.ended]
          omega

/-- The quote closes a literal. -/
theorem Quoted.bodyFrom_quote (quote : Char) (taken : Nat) (rest : Text) :
    bodyFrom quote taken (quote :: rest) = ⟨taken + 1, true⟩ := by
  rw [bodyFrom.eq_def]
  exact if_pos rfl

/-- A backslash takes the next character with it. -/
theorem Quoted.bodyFrom_escape {quote : Char} (hquote : '\\' ≠ quote) (taken : Nat) (c : Char)
    (rest : Text) :
    bodyFrom quote taken ('\\' :: c :: rest) = bodyFrom quote (taken + 2) rest := by
  rw [bodyFrom.eq_def]
  exact (if_neg hquote).trans (if_pos rfl)

/-- A backslash at the end of the text is taken alone. -/
theorem Quoted.bodyFrom_escape_nil {quote : Char} (hquote : '\\' ≠ quote) (taken : Nat) :
    bodyFrom quote taken ['\\'] = ⟨taken + 1, false⟩ := by
  rw [bodyFrom.eq_def]
  exact (if_neg hquote).trans (if_pos rfl)

/-- Every other character is taken alone. -/
theorem Quoted.bodyFrom_other {quote c : Char} (hquote : c ≠ quote) (hslash : c ≠ '\\')
    (taken : Nat) (rest : Text) :
    bodyFrom quote taken (c :: rest) = bodyFrom quote (taken + 1) rest := by
  rw [bodyFrom.eq_def]
  exact (if_neg hquote).trans (if_neg hslash)

/-- A closed literal has at least its closing quote. -/
theorem Quoted.lt_length_bodyFrom_of_closed (quote : Char) (taken : Nat) (text : Text)
    (h : (bodyFrom quote taken text).closed = true) :
    taken < (bodyFrom quote taken text).length := by
  fun_induction bodyFrom quote taken text with
  | case1 => cases h
  | case2 => exact Nat.lt_succ_self _
  | case3 => cases h
  | case4 taken c rest _ ih =>
    have hi := ih h
    omega
  | case5 taken c rest _ _ ih =>
    have hi := ih h
    omega

/-- The extent of a literal in a text cut short. -/
theorem Quoted.bodyFrom_clip (quote : Char) (taken : Nat) (text more : Text) :
    bodyFrom quote taken text =
      (bodyFrom quote taken (text ++ more)).clip (text.length + taken) false := by
  fun_induction bodyFrom quote taken text with
  | case1 taken =>
    rw [List.nil_append, List.length_nil, Nat.zero_add, Extent.clip_open
      (bodyFrom_bound quote taken more).1 (lt_length_bodyFrom_of_closed quote taken more)]
  | case2 taken rest =>
    rw [List.cons_append, bodyFrom_quote, List.length_cons, Extent.clip_of_le]
    exact Nat.le_trans (Nat.le_of_eq (Nat.add_comm taken 1)) (by omega)
  | case3 taken hquote =>
    -- the cut stands between a backslash and the character it takes with it
    rw [List.cons_append, List.nil_append, List.length_singleton, Nat.add_comm 1]
    cases more with
    | nil =>
      rw [bodyFrom_escape_nil hquote, Extent.clip_of_le]
      exact Nat.le_refl _
    | cons c rest =>
      rw [bodyFrom_escape hquote, Extent.clip_of_lt]
      exact Nat.lt_of_lt_of_le (Nat.lt_succ_self _) (bodyFrom_bound quote (taken + 2) rest).1
  | case4 taken c rest hquote ih =>
    rw [ih, List.cons_append, List.cons_append, bodyFrom_escape hquote]
    simp only [List.length_cons]
    congr 1
    omega
  | case5 taken c rest hquote hslash ih =>
    rw [ih, List.cons_append, bodyFrom_other hquote hslash, List.length_cons]
    congr 1
    omega

/-- The opener of a literal in a text cut short: as before when it ends before the cut, and
otherwise the text ends inside an opener. -/
theorem Quoted.openerLength?_clip {quote : Char} {text more : Text} {opener : Nat}
    (h : openerLength? quote (text ++ more) = some opener) :
    (opener ≤ text.length ∧ openerLength? quote text = some opener) ∨
      (text.length < opener ∧ EndsInside (encodings.map (· ++ [quote])) text) := by
  simp only [openerLength?, Option.map_eq_some_iff] at h
  obtain ⟨encoding, hfind, rfl⟩ := h
  obtain ⟨hlong, before, behind, hencodings, hbefore⟩ := List.find?_eq_some_iff_append.mp hfind
  have hwhole := List.isPrefixOf_iff_prefix.mp hlong
  have hlen : (encoding ++ [quote]).length = encoding.length + 1 := List.length_append
  by_cases hle : encoding.length + 1 ≤ text.length
  · left
    have hshort := List.prefix_of_prefix_length_le hwhole (List.prefix_append text more)
      (hlen ▸ hle)
    refine ⟨hle, ?_⟩
    have hfound : encodings.find? (fun encoding => (encoding ++ [quote]).isPrefixOf text) =
        some encoding := by
      refine List.find?_eq_some_iff_append.mpr
        ⟨List.isPrefixOf_iff_prefix.mpr hshort, before, behind, hencodings, ?_⟩
      intro other hother
      have hno := hbefore other hother
      simp only [Bool.not_eq_true'] at hno ⊢
      rw [Bool.eq_false_iff] at hno ⊢
      exact fun hs => hno (List.isPrefixOf_iff_prefix.mpr
        ((List.isPrefixOf_iff_prefix.mp hs).trans (List.prefix_append text more)))
    rw [openerLength?, hfound, Option.map_some]
  · right
    have hmem : encoding ∈ encodings := List.mem_of_find?_eq_some hfind
    have hinside := List.prefix_of_prefix_length_le (List.prefix_append text more) hwhole
      (by omega)
    refine ⟨by omega, encoding ++ [quote], List.mem_map_of_mem hmem, hinside, ?_⟩
    rintro rfl
    omega

/-- Without an opener a text cut short has none either. -/
theorem Quoted.openerLength?_declines {quote : Char} {text more : Text}
    (h : openerLength? quote (text ++ more) = none) : openerLength? quote text = none := by
  simp only [openerLength?, Option.map_eq_none_iff, List.find?_eq_none] at h ⊢
  intro encoding hmem hs
  exact h encoding hmem (List.isPrefixOf_iff_prefix.mpr
    ((List.isPrefixOf_iff_prefix.mp hs).trans (List.prefix_append text more)))

/-- Quoted literals obey the law and stay open until their closing quote has been read. -/
theorem Quoted.clipLaw (quote : Char) :
    ClipLaw false (EndsInside (encodings.map (· ++ [quote]))) (Quoted.scan? quote) where
  declines {text more} h := by
    simp only [scan?, Option.map_eq_none_iff] at h ⊢
    exact openerLength?_declines h
  clips {text more extent} h := by
    simp only [scan?, Option.map_eq_some_iff] at h
    obtain ⟨opener, hopener, rfl⟩ := h
    rcases openerLength?_clip hopener with ⟨hle, hshort⟩ | ⟨hlt, hinside⟩
    · left
      rw [scan?, hshort, Option.map_some, List.drop_append_of_le_length hle,
        bodyFrom_clip quote opener (text.drop opener) more, List.length_drop,
        Nat.sub_add_cancel hle]
    · have hb := (bodyFrom_bound quote opener ((text ++ more).drop opener)).1
      exact Or.inr ⟨by omega, hinside⟩

end CodeTint.Scan
