import CodeTint.Scan.Extent
import CodeTint.Text.CharClass

/-!
# Reading a text that is cut short

Every construct is read from its front. When the text behind it is cut away, a reader that had
stopped before the cut gives the same answer, and one that had gone beyond it now stops at the
cut. This module states that law for lengths, for searches and for extents, and shows which ways
of putting readers together keep it.
-/

namespace CodeTint.Text

/-- What can be checked character by character holds of every character of a text. -/
theorem forall_mem_of_all {p : Char → Prop} [DecidablePred p] {text : Text}
    (h : text.all (fun c => decide (p c)) = true) : ∀ c ∈ text, p c :=
  fun c hc => of_decide_eq_true (List.all_eq_true.mp h c hc)

/-- A run of characters ends where it did or at the cut. -/
theorem runLength_clip (p : Char → Bool) (text more : Text) :
    runLength p text = min (runLength p (text ++ more)) text.length := by
  induction text with
  | nil => simp only [runLength, List.takeWhile_nil, List.length_nil, Nat.min_zero]
  | cons c rest ih =>
    simp only [runLength, List.cons_append] at ih ⊢
    by_cases hc : p c = true
    · rw [List.takeWhile_cons_of_pos hc, List.takeWhile_cons_of_pos hc]
      simp only [List.length_cons]
      omega
    · rw [List.takeWhile_cons_of_neg hc, List.takeWhile_cons_of_neg hc]
      simp only [List.length_nil, Nat.zero_min]

/-- A run goes no further than a character outside its class. -/
theorem runLength_append_le (p : Char → Bool) (text more : Text) {c : Char} (hc : p c = false) :
    runLength p (text ++ c :: more) ≤ text.length := by
  induction text with
  | nil =>
    have hc' : ¬ p c = true := by rw [hc]; exact Bool.false_ne_true
    simp only [List.nil_append, runLength, List.takeWhile_cons_of_neg hc', List.length_nil,
      Nat.le_refl]
  | cons a rest ih =>
    simp only [runLength, List.cons_append] at ih ⊢
    by_cases ha : p a = true
    · rw [List.takeWhile_cons_of_pos ha]
      simp only [List.length_cons]
      omega
    · rw [List.takeWhile_cons_of_neg ha]
      exact Nat.zero_le _

/-- A run is nonempty exactly when the first character is in its class. -/
theorem runLength_cons_pos_iff (p : Char → Bool) (c : Char) (rest : Text) :
    0 < runLength p (c :: rest) ↔ p c = true := by
  by_cases hc : p c = true
  · simp only [runLength, List.takeWhile_cons_of_pos hc, List.length_cons, hc, iff_true]
    exact Nat.succ_pos _
  · simp only [runLength, List.takeWhile_cons_of_neg hc, List.length_nil, hc, Nat.lt_irrefl,
      Bool.false_eq_true]

/-- A search never looks behind its start. -/
theorem passed_le_of_indexFrom? {pattern text : Text} {passed index : Nat}
    (h : indexFrom? pattern passed text = some index) : passed ≤ index := by
  induction text generalizing passed with
  | nil =>
    simp only [indexFrom?] at h
    split at h
    · exact Nat.le_of_eq (Option.some.inj h)
    · cases h
  | cons c rest ih =>
    simp only [indexFrom?] at h
    split at h
    · exact Nat.le_of_eq (Option.some.inj h)
    · exact Nat.le_of_succ_le (ih h)

/-- A pattern that is longer than the text does not occur in it. -/
theorem indexFrom?_eq_none_of_lt {pattern text : Text} (passed : Nat)
    (h : text.length < pattern.length) : indexFrom? pattern passed text = none := by
  cases hi : indexFrom? pattern passed text with
  | none => rfl
  | some index =>
    have hb := indexFrom?_bound hi
    have hp := passed_le_of_indexFrom? hi
    omega

/-- In a text cut short the first occurrence is found when it ends before the cut, and none is
found otherwise. -/
theorem indexFrom?_clip (pattern text more : Text) (passed : Nat) :
    indexFrom? pattern passed text =
      (indexFrom? pattern passed (text ++ more)).filter
        fun index => index + pattern.length ≤ passed + text.length := by
  induction text generalizing passed with
  | nil =>
    by_cases hp : pattern = []
    · subst hp
      cases more <;> simp [indexFrom?, Option.filter]
    · have hlen := List.length_pos_iff.mpr hp
      have hnone : indexFrom? pattern passed [] = none := indexFrom?_eq_none_of_lt passed hlen
      rw [hnone, List.nil_append, eq_comm, Option.filter_eq_none_iff]
      intro index hindex
      have hge := passed_le_of_indexFrom? hindex
      simp only [List.length_nil, decide_eq_true_eq]
      omega
  | cons c rest ih =>
    rw [List.cons_append]
    by_cases hlong : pattern.isPrefixOf (c :: (rest ++ more)) = true
    · simp only [indexFrom?, if_pos hlong, Option.filter_some, List.length_cons]
      have hwhole := List.isPrefixOf_iff_prefix.mp hlong
      by_cases hfit : pattern.length ≤ (c :: rest).length
      · -- the occurrence at the front lies before the cut
        have hshort := List.prefix_of_prefix_length_le hwhole
          (List.prefix_append (c :: rest) more) hfit
        rw [if_pos (List.isPrefixOf_iff_prefix.mpr hshort), if_pos]
        simp only [List.length_cons] at hfit
        simp only [decide_eq_true_eq]
        omega
      · -- it reaches beyond the cut, and then there is no room for any other
        have hshort : ¬ pattern.isPrefixOf (c :: rest) = true := fun hs =>
          hfit (List.isPrefixOf_iff_prefix.mp hs).length_le
        simp only [List.length_cons] at hfit
        rw [if_neg hshort, indexFrom?_eq_none_of_lt _ (by omega), if_neg]
        simp only [decide_eq_true_eq]
        omega
    · have hshort : ¬ pattern.isPrefixOf (c :: rest) = true := fun hs =>
        hlong (List.isPrefixOf_iff_prefix.mpr ((List.isPrefixOf_iff_prefix.mp hs).trans
          (List.prefix_append (c :: rest) more)))
      simp only [indexFrom?, if_neg hlong, if_neg hshort, List.length_cons]
      rw [ih (passed + 1)]
      simp only [Nat.add_assoc, Nat.add_comm 1]

/-- In a text cut short the first occurrence of a pattern is found exactly when it ends before
the cut. -/
theorem indexOf?_clip (pattern text more : Text) :
    indexOf? pattern text =
      (indexOf? pattern (text ++ more)).filter
        fun index => index + pattern.length ≤ text.length := by
  rw [indexOf?, indexOf?, indexFrom?_clip pattern text more 0]
  simp only [Nat.zero_add]

/-- A reader of lengths obeys the law of clipping: cut short, it stops where it did or at the
cut. The exception is a reader that would have gone beyond the cut and has now stopped in front
of a rest that is pending. -/
def Clips (Pending : Text → Prop) (reach : Text → Nat) : Prop :=
  ∀ text more : Text,
    reach text = min (reach (text ++ more)) text.length ∨
      (text.length < reach (text ++ more) ∧ Pending (text.drop (reach text)))

/-- A reader of lengths never goes beyond a newline. -/
def StopsAtNewline (reach : Text → Nat) : Prop :=
  ∀ text more : Text, reach (text ++ '\n' :: more) ≤ text.length

/-- What two readers take when the second one starts where the first one stopped. -/
def andThen (first last : Text → Nat) (text : Text) : Nat :=
  first text + last (text.drop (first text))

/-- A run of characters obeys the law without exception. -/
theorem clips_runLength (Pending : Text → Prop) (p : Char → Bool) : Clips Pending (runLength p) :=
  fun text more => Or.inl (runLength_clip p text more)

/-- Two readers in sequence obey the law when each does and the second one reads nothing from a
pending rest, so that an undecided first reader leaves the sequence undecided. -/
theorem Clips.andThen {Pending : Text → Prop} {first last : Text → Nat}
    (hfirst : Clips Pending first) (hlast : Clips Pending last)
    (hzero : ∀ rest, Pending rest → last rest = 0) : Clips Pending (andThen first last) := by
  have hnil : last [] = 0 := by
    rcases hlast [] [] with h | ⟨_, hp⟩
    · rwa [List.length_nil, Nat.min_zero] at h
    · exact hzero [] (by rwa [List.drop_nil] at hp)
  intro text more
  unfold Text.andThen
  rcases hfirst text more with hf | ⟨hlt, hp⟩
  · by_cases hle : first (text ++ more) ≤ text.length
    · -- the first reader stops before the cut, and the second one starts where it did
      have he : first (text ++ more) = first text := by omega
      rw [he] at hle ⊢
      rw [List.drop_append_of_le_length hle]
      rcases hlast (text.drop (first text)) more with hl | ⟨hlt, hp⟩
      · left
        rw [List.length_drop] at hl
        omega
      · right
        rw [List.length_drop] at hlt
        rw [List.drop_drop] at hp
        exact ⟨by omega, hp⟩
    · -- the first reader takes all of the text, and nothing is left for the second one
      have he : first text = text.length := by omega
      left
      rw [he, List.drop_length, hnil]
      omega
  · right
    rw [hzero _ hp, Nat.add_zero]
    exact ⟨by omega, hp⟩

/-- A run of characters of a class without the newline stops at one. -/
theorem stopsAtNewline_runLength {p : Char → Bool} (hp : p '\n' = false) :
    StopsAtNewline (runLength p) :=
  fun text more => runLength_append_le p text more hp

/-- Two readers in sequence stop at a newline when each does. -/
theorem StopsAtNewline.andThen {first last : Text → Nat} (hfirst : StopsAtNewline first)
    (hlast : StopsAtNewline last) : StopsAtNewline (andThen first last) := by
  intro text more
  have hf := hfirst text more
  unfold Text.andThen
  rw [List.drop_append_of_le_length hf]
  have hl := hlast (text.drop (first (text ++ '\n' :: more))) more
  rw [List.length_drop] at hl
  omega

end CodeTint.Text

namespace CodeTint.Scan

/-- An extent in a text cut short: what ended before the cut stays as it is, and the rest reaches
to the cut, where it counts as closed or not. -/
def Extent.clip (extent : Extent) (limit : Nat) (closed : Bool) : Extent :=
  if extent.length ≤ limit then extent else ⟨limit, closed⟩

/-- What ended before the cut stays as it is. -/
theorem Extent.clip_of_le {extent : Extent} {limit : Nat} (closed : Bool)
    (h : extent.length ≤ limit) : extent.clip limit closed = extent :=
  if_pos h

/-- What reached beyond the cut reaches to it. -/
theorem Extent.clip_of_lt {extent : Extent} {limit : Nat} (closed : Bool)
    (h : limit < extent.length) : extent.clip limit closed = ⟨limit, closed⟩ :=
  if_neg (Nat.not_le_of_lt h)

/-- What reaches to the cut at least, and is closed only beyond it, is cut open there. -/
theorem Extent.clip_open {extent : Extent} {limit : Nat} (hle : limit ≤ extent.length)
    (hlt : extent.closed = true → limit < extent.length) :
    extent.clip limit false = ⟨limit, false⟩ := by
  rcases Nat.lt_or_eq_of_le hle with h | h
  · exact clip_of_lt false h
  · rw [clip_of_le false (Nat.le_of_eq h.symm)]
    have hopen : extent.closed = false := by
      cases hc : extent.closed with
      | false => rfl
      | true => exact absurd h (Nat.ne_of_lt (hlt hc))
    cases extent
    simp only [Extent.mk.injEq]
    exact ⟨h.symm, hopen⟩

/-- An open construct stays open in a text cut short. -/
theorem Extent.clip_openEnded (text more : Text) :
    (openEnded (text ++ more)).clip text.length false = openEnded text := by
  refine clip_open ?_ fun h => absurd h.symm Bool.true_eq_false.mp
  simp only [openEnded, List.length_append]
  exact Nat.le_add_right _ _

/-- A length that counts as closed everywhere is cut to the limit. -/
theorem Extent.clip_ended (length limit : Nat) :
    (ended length).clip limit true = ended (min length limit) := by
  by_cases h : length ≤ limit
  · rw [clip_of_le true h, Nat.min_eq_left h]
  · rw [clip_of_lt true (Nat.lt_of_not_le h), Nat.min_eq_right (Nat.le_of_not_le h), ended]

/-- The law of clipping for a scanner. On a text cut short it declines where it declined, and
answers with the clipped extent where it answered; a construct that runs into the cut is `closed`
there or not. The exceptions are texts that are too short to tell. -/
structure ClipLaw (closed : Bool) (Short : Text → Prop) (scan? : Text → Option Extent) :
    Prop where
  /-- What is declined is declined on every shorter text. -/
  declines : ∀ {text more : Text}, scan? (text ++ more) = none → scan? text = none
  /-- What is recognized is recognized up to the cut. -/
  clips : ∀ {text more : Text} {extent : Extent}, scan? (text ++ more) = some extent →
    scan? text = some (extent.clip text.length closed) ∨
      (text.length < extent.length ∧ Short text)

/-- The text ends inside one of the openers. -/
def EndsInside (openers : List Text) (text : Text) : Prop :=
  ∃ opener ∈ openers, text <+: opener ∧ text ≠ opener

/-- A text that ends inside an opener is a proper beginning of it. -/
theorem EndsInside.eq_take {openers : List Text} {text : Text} (h : EndsInside openers text) :
    ∃ opener ∈ openers, text.length < opener.length ∧ text = opener.take text.length := by
  obtain ⟨opener, hmem, hbegin, hne⟩ := h
  have hle := hbegin.length_le
  have hlt : text.length ≠ opener.length := fun he => hne (hbegin.eq_of_length he)
  exact ⟨opener, hmem, by omega, List.prefix_iff_eq_take.mp hbegin⟩

/-- A text that ends inside a pair of characters has at most one. -/
theorem EndsInside.length_lt_two {a b : Char} {text : Text} (h : EndsInside [[a, b]] text) :
    text.length < 2 := by
  obtain ⟨opener, hmem, hlt, -⟩ := h.eq_take
  cases List.mem_singleton.mp hmem
  exact hlt

/-- A text whose continuation starts with a pair of characters ends inside the pair or starts
with it. -/
theorem append_eq_pair {a b : Char} {text more body : Text} (h : text ++ more = a :: b :: body) :
    EndsInside [[a, b]] text ∨ ∃ rest, text = a :: b :: rest ∧ body = rest ++ more := by
  rcases text with _ | ⟨c, _ | ⟨d, rest⟩⟩
  · exact Or.inl ⟨[a, b], List.mem_singleton_self _, List.nil_prefix,
      (List.cons_ne_nil _ _).symm⟩
  · simp only [List.cons_append, List.nil_append, List.cons.injEq] at h
    obtain ⟨rfl, -⟩ := h
    exact Or.inl ⟨[c, b], List.mem_singleton_self _, ⟨[b], rfl⟩, by simp⟩
  · simp only [List.cons_append, List.cons.injEq] at h
    obtain ⟨rfl, rfl, rfl⟩ := h
    exact Or.inr ⟨rest, rfl, rfl⟩

/-- A scanner answers exactly behind a pair of characters, with this reach. -/
structure AnswersBehind (a b : Char) (scan? : Text → Option Extent) (reach : Text → Extent) :
    Prop where
  /-- Behind the pair it answers. -/
  answers : ∀ body, scan? (a :: b :: body) = some (reach body)
  /-- Everywhere else it declines. -/
  declines : ∀ text, (∀ body, text ≠ a :: b :: body) → scan? text = none

/-- What is answered starts with the pair. -/
theorem AnswersBehind.pair_prefix {a b : Char} {scan? : Text → Option Extent}
    {reach : Text → Extent} (hscan : AnswersBehind a b scan? reach) {text : Text}
    {extent : Extent} (h : scan? text = some extent) : [a, b] <+: text := by
  by_cases hp : ∃ body, text = a :: b :: body
  · obtain ⟨body, rfl⟩ := hp
    exact ⟨body, rfl⟩
  · rw [hscan.declines text fun body hbody => hp ⟨body, hbody⟩] at h
    cases h

/-- A scanner that answers exactly behind a pair of characters obeys the law when its answer does.
Only texts that end inside the pair are too short. -/
theorem ClipLaw.ofPair {a b : Char} {closed : Bool} {scan? : Text → Option Extent}
    {reach : Text → Extent} (hscan : AnswersBehind a b scan? reach)
    (hpair : ∀ body, 2 ≤ (reach body).length)
    (hclip : ∀ body more, reach body = (reach (body ++ more)).clip (body.length + 2) closed) :
    ClipLaw closed (EndsInside [[a, b]]) scan? where
  declines {text more} h := by
    apply hscan.declines
    rintro body rfl
    rw [List.cons_append, List.cons_append, hscan.answers] at h
    cases h
  clips {text more extent} h := by
    obtain ⟨body, hbody⟩ := hscan.pair_prefix h
    rw [← hbody, List.cons_append, List.cons_append, List.nil_append, hscan.answers] at h
    cases h
    rcases append_eq_pair hbody.symm with hs | ⟨rest, rfl, rfl⟩
    · have hlt := hs.length_lt_two
      have hle := hpair body
      exact Or.inr ⟨by omega, hs⟩
    · left
      rw [hscan.answers, hclip rest more]
      rfl

end CodeTint.Scan
