import CodeTint.Proofs.Lookahead

/-!
# Whole runs of the scanner

A run is followed token by token. Every token of a run is the next token of some rest of the
text, behind the context and the bytes of what is in front of that rest. When more text is put
behind a text, either its tokens stay and those of the additional text follow, or the run is torn:
both runs agree up to a token that goes beyond the end of the shorter text.
-/

namespace CodeTint

/-- Every character has bytes, so a nonempty text has some. -/
theorem Text.bytes_pos {text : Text} (h : text ≠ []) : 0 < bytes text := by
  have hpos := List.length_pos_iff.mpr h
  have hle := length_le_bytes text
  omega

namespace Token

open Scan Text

/-- A property of runs that holds without text, and holds of a text when it holds of what its
first token leaves, holds of every text. -/
theorem scan_induction (table : List Rule) {motive : Context → Nat → Text → Prop}
    (nil : ∀ context start, motive context start [])
    (cons : ∀ context start text, text ≠ [] →
      motive (context.after (next table context start text).text)
        (next table context start text).stop
        (text.drop (next table context start text).text.length) →
      motive context start text)
    (context : Context) (start : Nat) (text : Text) : motive context start text := by
  induction hn : text.length using Nat.strongRecOn generalizing context start text with
  | ind n ih =>
    by_cases h : text = []
    · rw [h]
      exact nil context start
    · have hlt := drop_next_length table context start h
      rw [hn] at hlt
      exact cons context start text h (ih _ hlt _ _ _ rfl)

/-- The next token and what it leaves make up the text. -/
theorem text_next_append (table : List Rule) (context : Context) (start : Nat) {text : Text}
    (h : text ≠ []) :
    (next table context start text).text ++
      text.drop (next table context start text).text.length = text :=
  (List.prefix_iff_eq_append.mp (text_next table context start h).2)

/-- The bytes up to the end of the next token and those it leaves are all the bytes. -/
theorem stop_next_add (table : List Rule) (context : Context) (start : Nat) {text : Text}
    (h : text ≠ []) :
    (next table context start text).stop +
      bytes (text.drop (next table context start text).text.length) = start + bytes text := by
  rw [stop, start_next, Nat.add_assoc, ← bytes_append, text_next_append table context start h]

/-- The next token ends behind its start. -/
theorem start_lt_stop_next (table : List Rule) (context : Context) (start : Nat) {text : Text}
    (h : text ≠ []) : start < (next table context start text).stop := by
  have hpos := bytes_pos (text_next table context start h).1
  rw [stop, start_next]
  omega

/-- Every token of a run is the next token of a rest of the text. -/
theorem exists_next_of_mem_scan {table : List Rule} {context : Context} {start : Nat}
    {text : Text} {token : Token} (h : token ∈ scan table context start text) :
    ∃ front rest, text = front ++ rest ∧ rest ≠ [] ∧
      token = next table (context.after front) (start + bytes front) rest := by
  induction context, start, text using scan_induction table with
  | nil context start =>
    rw [scan_nil] at h
    cases h
  | cons context start text htext ih =>
    rw [scan_of_ne_nil table context start htext, List.mem_cons] at h
    rcases h with rfl | h
    · exact ⟨[], text, rfl, htext, rfl⟩
    · obtain ⟨front, rest, hdrop, hrest, htoken⟩ := ih h
      refine ⟨(next table context start text).text ++ front, rest, ?_, hrest, ?_⟩
      · rw [List.append_assoc, ← hdrop, text_next_append table context start htext]
      · rw [htoken, Context.after_append, bytes_append, stop, start_next, Nat.add_assoc]

/-- The tokens of a run are nonempty and lie between its first and its last byte. -/
theorem bounds_of_mem_scan {table : List Rule} {context : Context} {start : Nat} {text : Text}
    {token : Token} (h : token ∈ scan table context start text) :
    start ≤ token.start ∧ token.start < token.stop ∧ token.stop ≤ start + bytes text := by
  obtain ⟨front, rest, rfl, hrest, rfl⟩ := exists_next_of_mem_scan h
  have hlt := start_lt_stop_next table (context.after front) (start + bytes front) hrest
  have hend := stop_next_add table (context.after front) (start + bytes front) hrest
  rw [start_next, bytes_append]
  omega

/-- An open token ends with the text. -/
theorem stop_of_open {table : List Rule} {context : Context} {start : Nat} {text : Text}
    {token : Token} (h : token ∈ scan table context start text) (hopen : token.closed = false) :
    token.stop = start + bytes text := by
  obtain ⟨front, rest, rfl, hrest, rfl⟩ := exists_next_of_mem_scan h
  rw [stop, start_next, text_next_of_open hopen, bytes_append, Nat.add_assoc]

/-- The tokens of a run stand one behind the other. -/
theorem pairwise_scan (table : List Rule) (context : Context) (start : Nat) (text : Text) :
    (scan table context start text).Pairwise fun first last => first.stop ≤ last.start := by
  induction context, start, text using scan_induction table with
  | nil context start =>
    rw [scan_nil]
    exact List.Pairwise.nil
  | cons context start text htext ih =>
    rw [scan_of_ne_nil table context start htext]
    exact List.Pairwise.cons (fun token htoken => (bounds_of_mem_scan htoken).1) ih

/-- Only the last token of a run ends with the text. -/
theorem stop_lt_of_mem_front {table : List Rule} {context : Context} {start : Nat} {text : Text}
    {front : List Token} {last token : Token}
    (h : scan table context start text = front ++ [last]) (htoken : token ∈ front) :
    token.stop < start + bytes text := by
  have horder := pairwise_scan table context start text
  rw [h, List.pairwise_append] at horder
  have hle := horder.2.2 token htoken last (List.mem_singleton_self last)
  have hmem : last ∈ scan table context start text :=
    h ▸ List.mem_append_right front (List.mem_singleton_self last)
  have hbounds := bounds_of_mem_scan hmem
  omega

/-- Only the last token of a run can be open. -/
theorem closed_of_mem_front {table : List Rule} {context : Context} {start : Nat} {text : Text}
    {front : List Token} {last token : Token}
    (h : scan table context start text = front ++ [last]) (htoken : token ∈ front) :
    token.closed = true := by
  have hlt := stop_lt_of_mem_front h htoken
  cases hclosed : token.closed with
  | true => rfl
  | false =>
    have hend := stop_of_open (h ▸ List.mem_append_left _ htoken) hclosed
    omega

/-- A token that ends with the text is the last one of the run. -/
theorem getLast?_of_stop {table : List Rule} {context : Context} {start : Nat} {text : Text}
    {token : Token} (htoken : token ∈ scan table context start text)
    (hstop : token.stop = start + bytes text) :
    (scan table context start text).getLast? = some token := by
  rcases (scan table context start text).eq_nil_or_concat with hnil | ⟨front, last, hlast⟩
  · rw [hnil] at htoken
    cases htoken
  · rw [List.concat_eq_append] at hlast
    rw [hlast, List.mem_append, List.mem_singleton] at htoken
    rcases htoken with hfront | rfl
    · exact absurd hstop (Nat.ne_of_lt (stop_lt_of_mem_front hlast hfront))
    · rw [hlast, List.getLast?_concat]

/-- A run has at most as many tokens as characters. -/
theorem length_scan_le (table : List Rule) (context : Context) (start : Nat) (text : Text) :
    (scan table context start text).length ≤ text.length := by
  induction context, start, text using scan_induction table with
  | nil context start =>
    simp only [scan_nil, List.length_nil, Nat.le_refl]
  | cons context start text htext ih =>
    have hlt := drop_next_length table context start htext
    rw [scan_of_ne_nil table context start htext, List.length_cons]
    omega

/-- The runs over a text and over the text with more behind it agree up to a token that goes
beyond the end of the shorter one. -/
structure Torn (table : List Rule) (context : Context) (start : Nat) (text more : Text)
    (front rest : Text) (kept : List Token) : Prop where
  /-- The agreement covers the front of the text. -/
  cut : text = front ++ rest
  /-- Some of the text is left. -/
  left : rest ≠ []
  /-- The shorter run. -/
  short : scan table context start text =
    kept ++ scan table (context.after front) (start + bytes front) rest
  /-- The longer run. -/
  long : scan table context start (text ++ more) =
    kept ++ scan table (context.after front) (start + bytes front) (rest ++ more)
  /-- What both have ends with the front. -/
  settled : ∀ token ∈ kept, token.stop ≤ start + bytes front
  /-- The next token of the longer run goes beyond the shorter text. -/
  beyond : rest.length <
    (next table (context.after front) (start + bytes front) (rest ++ more)).text.length

/-- A first token that ends inside the text stays when more text follows, and the run goes on
with what it leaves in front of the additional text. -/
theorem scan_append_of_le {table : List Rule} {context : Context} {start : Nat} {text more : Text}
    (htext : text ≠ [])
    (hle : (next table context start (text ++ more)).text.length ≤ text.length) :
    scan table context start (text ++ more) =
      next table context start text ::
        scan table (context.after (next table context start text).text)
          (next table context start text).stop
          (text.drop (next table context start text).text.length ++ more) := by
  have hmore : text ++ more ≠ [] := List.append_ne_nil_of_left_ne_nil htext more
  have hnext := next_of_append htext hle
  rw [← hnext] at hle
  rw [scan_of_ne_nil table context start hmore, ← hnext, List.drop_append_of_le_length hle]

/-- A tear behind the first token is a tear of the whole run. -/
theorem Torn.cons {table : List Rule} {context : Context} {start : Nat}
    {text more front rest : Text} {kept : List Token} (htext : text ≠ [])
    (hle : (next table context start (text ++ more)).text.length ≤ text.length)
    (h : Torn table (context.after (next table context start text).text)
      (next table context start text).stop
      (text.drop (next table context start text).text.length) more front rest kept) :
    Torn table context start text more ((next table context start text).text ++ front) rest
      (next table context start text :: kept) := by
  have hcontext : context.after ((next table context start text).text ++ front) =
      (context.after (next table context start text).text).after front :=
    Context.after_append _ _ _
  have hstart : start + bytes ((next table context start text).text ++ front) =
      (next table context start text).stop + bytes front := by
    rw [bytes_append, stop, start_next, Nat.add_assoc]
  constructor
  · rw [List.append_assoc, ← h.cut, text_next_append table context start htext]
  · exact h.left
  · rw [scan_of_ne_nil table context start htext, h.short, hcontext, hstart, List.cons_append]
  · rw [scan_append_of_le htext hle, h.long, hcontext, hstart, List.cons_append]
  · intro token htoken
    rw [hstart]
    rcases List.mem_cons.mp htoken with rfl | htoken
    · exact Nat.le_add_right _ _
    · exact h.settled token htoken
  · rw [hcontext, hstart]
    exact h.beyond

/-- A run over more text is torn, or the tokens of the additional text follow. -/
theorem scan_append (table : List Rule) (context : Context) (start : Nat) (text more : Text) :
    scan table context start (text ++ more) =
        scan table context start text ++
          scan table (context.after text) (start + bytes text) more ∨
      ∃ front rest kept, Torn table context start text more front rest kept := by
  induction context, start, text using scan_induction table with
  | nil context start => exact Or.inl (by rw [scan_nil]; rfl)
  | cons context start text htext ih =>
    by_cases hle : (next table context start (text ++ more)).text.length ≤ text.length
    · -- the first token stays, and the runs behind it decide
      rcases ih with ih | ⟨front, rest, kept, ih⟩
      · left
        rw [scan_append_of_le htext hle, ih, stop_next_add table context start htext,
          ← Context.after_append, text_next_append table context start htext,
          scan_of_ne_nil table context start htext, List.cons_append]
      · exact Or.inr ⟨_, rest, _, ih.cons htext hle⟩
    · have hnone : ∀ token ∈ ([] : List Token), token.stop ≤ start + bytes [] :=
        fun _ htoken => absurd htoken List.not_mem_nil
      exact Or.inr ⟨[], text, [], rfl, htext, rfl, rfl, hnone, Nat.lt_of_not_le hle⟩

namespace Torn

variable {table : List Rule} {context : Context} {start : Nat} {text more front rest : Text}
  {kept : List Token}

/-- What both runs have is a beginning of the longer one. -/
theorem kept_prefix_long (h : Torn table context start text more front rest kept) :
    kept <+: scan table context start (text ++ more) := by
  rw [h.long]
  exact List.prefix_append _ _

/-- At most three tokens of the shorter run are not in the longer one. -/
theorem length_short_le (h : Torn table context start text more front rest kept) :
    (scan table context start text).length ≤ kept.length + 3 := by
  have hrest := length_le_two_of_undecided (next_of_overrun h.left h.beyond).1
  have hbehind := length_scan_le table
    ((context.after front).after (next table (context.after front) (start + bytes front) rest).text)
    (next table (context.after front) (start + bytes front) rest).stop
    (rest.drop (next table (context.after front) (start + bytes front) rest).text.length)
  rw [h.short, List.length_append, scan_of_ne_nil table _ _ h.left, List.length_cons]
  omega

/-- The token that goes beyond the end of the shorter text ends behind its last byte. -/
theorem lt_stop_next (h : Torn table context start text more front rest kept) :
    start + bytes text <
      (next table (context.after front) (start + bytes front) (rest ++ more)).stop := by
  have hbeyond := h.beyond
  have hall : rest ++ more ≠ [] := List.append_ne_nil_of_left_ne_nil h.left more
  have hnext := (text_next table (context.after front) (start + bytes front) hall).2
  rw [stop, start_next, h.cut, bytes_append]
  generalize (next table (context.after front) (start + bytes front) (rest ++ more)).text = taken
    at *
  obtain ⟨extra, rfl⟩ := List.prefix_of_prefix_length_le (List.prefix_append rest more) hnext
    (Nat.le_of_lt hbeyond)
  rw [List.length_append] at hbeyond
  have hextra := bytes_pos (List.length_pos_iff.mp (by omega : 0 < extra.length))
  rw [bytes_append]
  omega

/-- No token of the longer run ends where the shorter text does. -/
theorem stop_ne (h : Torn table context start text more front rest kept) {token : Token}
    (htoken : token ∈ scan table context start (text ++ more)) :
    token.stop ≠ start + bytes text := by
  have hbeyond := h.lt_stop_next
  have hall : rest ++ more ≠ [] := List.append_ne_nil_of_left_ne_nil h.left more
  rw [h.long, List.mem_append, scan_of_ne_nil table _ _ hall, List.mem_cons] at htoken
  rcases htoken with hkept | rfl | hbehind
  · have hle := h.settled token hkept
    have hpos := bytes_pos h.left
    rw [h.cut, bytes_append]
    omega
  · omega
  · have hbounds := bounds_of_mem_scan hbehind
    omega

/-- A token of the shorter run that is open is where the runs part. -/
theorem eq_next_of_open (h : Torn table context start text more front rest kept) {token : Token}
    (htoken : token ∈ scan table context start text) (hopen : token.closed = false) :
    token = next table (context.after front) (start + bytes front) rest := by
  have hend := stop_of_open htoken hopen
  rw [h.short, List.mem_append, scan_of_ne_nil table _ _ h.left, List.mem_cons] at htoken
  rcases htoken with hkept | rfl | hbehind
  · have hle := h.settled token hkept
    have hpos := bytes_pos h.left
    rw [h.cut, bytes_append] at hend
    omega
  · rfl
  · -- an undecided rest holds no opener, so nothing behind the token is open
    obtain ⟨passed, text', hdrop, -, rfl⟩ := exists_next_of_mem_scan hbehind
    obtain ⟨opener, hopener, hbegin⟩ := exists_opener_of_open_next hopen
    have hrest := (next_of_overrun h.left h.beyond).1
    rw [hdrop] at hrest
    exact absurd hbegin
      (not_opener_prefix_of_undecided hrest (List.suffix_append _ _) hopener)

end Torn

end Token

end CodeTint
