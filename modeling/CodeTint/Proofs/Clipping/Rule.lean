import CodeTint.Proofs.Clipping.Number
import CodeTint.Proofs.Clipping.Scanners
import CodeTint.Scan.Rule

/-!
# The rules obey the law of clipping

Every rule is its reach together with the kind of what it takes, and every reach obeys the law.
Rules whose constructs open with fixed characters are undecided only inside such an opener, and
what runs over a newline is whitespace, an open construct or a continued directive.
-/

namespace CodeTint.Scan

/-- A weaker notion of being too short keeps the law. -/
theorem ClipLaw.mono {closed : Bool} {Short Shorter : Text → Prop}
    {scan? : Text → Option Extent} (h : ClipLaw closed Shorter scan?)
    (hshort : ∀ text, Shorter text → Short text) : ClipLaw closed Short scan? where
  declines := h.declines
  clips hx := (h.clips hx).imp_right fun h => ⟨h.1, hshort _ h.2⟩

namespace Rule

/-- How far a rule reaches, whatever the kind of its answer. -/
def reach? (rule : Rule) (context : Context) (text : Text) : Option Extent :=
  match rule with
  | whitespace => Space.scan? text
  | attributeSpec => Attribute.scan? text
  | lineComment => Comment.line? text
  | blockComment => Comment.block? text
  | directive => Directive.scan? context.lineBlank text
  | rawString => RawString.scan? text
  | string => Quoted.scan? '"' text
  | character => Quoted.scan? '\x27' text
  | number => if context.behindLetter then none else Number.scan? text
  | word => Word.scan? text

/-- The kind of what a rule has taken. -/
def kindOf (rule : Rule) (taken : Text) : Kind :=
  match rule with
  | whitespace => .whitespace
  | attributeSpec => .attributeSpec
  | lineComment => .lineComment
  | blockComment => .blockComment
  | directive => .directive
  | rawString => .rawString
  | string => .string
  | character => .character
  | number => .number
  | word => if Word.isReserved taken then .keyword else .identifier

/-- The answer of a rule is its reach and the kind of what it takes. -/
theorem scan?_eq (rule : Rule) (context : Context) (text : Text) :
    rule.scan? context text =
      (rule.reach? context text).map fun extent =>
        ⟨rule.kindOf (text.take extent.length), extent⟩ := by
  cases rule
  case number =>
    simp only [scan?, reach?]
    split <;> rfl
  all_goals rfl

/-- The kind of what a rule takes tells the rule. -/
theorem ofKind?_kindOf (rule : Rule) (taken : Text) : ofKind? (rule.kindOf taken) = some rule := by
  cases rule
  case word =>
    rw [kindOf]
    split <;> rfl
  all_goals rfl

/-- The fixed characters with which the constructs of a rule open, where there are any. -/
def openers : Rule → List Text
  | attributeSpec => [['[', '[']]
  | lineComment => [['/', '/']]
  | blockComment => [['/', '*']]
  | directive => [['#']]
  | rawString => [['R', '"']]
  | string => Quoted.encodings.map (· ++ ['"'])
  | character => Quoted.encodings.map (· ++ ['\x27'])
  | whitespace | number | word => []

/-- A construct of the rule is complete wherever the text ends; the others need a closing
delimiter. -/
def endsWithText : Rule → Bool
  | attributeSpec | blockComment | rawString | string | character => false
  | whitespace | lineComment | directive | number | word => true

/-- A text too short for a rule to answer as it would if the text went on. -/
def Short (rule : Rule) (text : Text) : Prop :=
  text = [] ∨ EndsInside rule.openers text ∨
    (rule = number ∧
      ∃ length, Number.length? text = some length ∧ Number.Pending (text.drop length))

/-- The reach of every rule obeys the law of clipping. -/
theorem clipLaw (rule : Rule) (context : Context) :
    ClipLaw rule.endsWithText rule.Short (rule.reach? context) := by
  have hinside : ∀ text, EndsInside rule.openers text → rule.Short text :=
    fun _ h => Or.inr (Or.inl h)
  cases rule
  case whitespace => exact Space.clipLaw.mono fun _ h => Or.inl h
  case attributeSpec => exact Attribute.clipLaw.mono hinside
  case lineComment => exact Comment.clipLaw_line.mono hinside
  case blockComment => exact Comment.clipLaw_block.mono hinside
  case directive => exact (Directive.clipLaw context.lineBlank).mono hinside
  case rawString => exact RawString.clipLaw.mono hinside
  case string => exact (Quoted.clipLaw '"').mono hinside
  case character => exact (Quoted.clipLaw '\x27').mono hinside
  case number =>
    by_cases hletter : context.behindLetter = true
    · exact ⟨fun _ => if_pos hletter, fun h => by simp [reach?, hletter] at h⟩
    · have hreach : number.reach? context = Number.scan? := by
        funext text
        exact if_neg hletter
      rw [hreach]
      exact Number.clipLaw.mono fun _ h => h.imp_right fun hp => Or.inr ⟨rfl, hp⟩
  case word => exact Word.clipLaw.mono fun _ h => Or.inl h

/-- A construct that ended inside the text is the same in the text cut short. -/
theorem scan?_of_append {rule : Rule} {context : Context} {text more : Text} {found : Match}
    (h : rule.scan? context (text ++ more) = some found)
    (hle : found.extent.length ≤ text.length) : rule.scan? context text = some found := by
  rw [scan?_eq, Option.map_eq_some_iff] at h
  obtain ⟨extent, hextent, rfl⟩ := h
  rcases (clipLaw rule context).clips hextent with hclip | ⟨hlt, _⟩
  · rw [scan?_eq, hclip, Extent.clip_of_le _ hle, Option.map_some,
      List.take_append_of_le_length hle]
  · exact absurd hle (Nat.not_le_of_lt hlt)

/-- A construct that went beyond the text takes all of it when the text is cut short, unless the
text is too short. -/
theorem scan?_of_overrun {rule : Rule} {context : Context} {text more : Text} {found : Match}
    (h : rule.scan? context (text ++ more) = some found)
    (hlt : text.length < found.extent.length) :
    rule.scan? context text = some ⟨rule.kindOf text, text.length, rule.endsWithText⟩ ∨
      rule.Short text := by
  rw [scan?_eq, Option.map_eq_some_iff] at h
  obtain ⟨extent, hextent, rfl⟩ := h
  rcases (clipLaw rule context).clips hextent with hclip | ⟨_, hshort⟩
  · left
    rw [scan?_eq, hclip, Extent.clip_of_lt _ hlt, Option.map_some, List.take_length]
  · exact Or.inr hshort

/-- A rule that declines a text declines it cut short. -/
theorem scan?_eq_none_of_append {rule : Rule} {context : Context} {text more : Text}
    (h : rule.scan? context (text ++ more) = none) : rule.scan? context text = none := by
  rw [scan?_eq, Option.map_eq_none_iff] at h ⊢
  exact (clipLaw rule context).declines h

/-- The kind of a construct that needs a closing delimiter does not depend on its text. -/
theorem kindOf_eq {rule : Rule} (h : rule.endsWithText = false) (first last : Text) :
    rule.kindOf first = rule.kindOf last := by
  cases rule <;> simp only [endsWithText, Bool.true_eq_false] at h <;> rfl

/-- Where the rule for numbers answers one text, it answers every other as the scanner does. -/
theorem scan?_number {context : Context} {other : Text} {found : Match}
    (h : number.scan? context other = some found) {text : Text} {length : Nat}
    (hlength : Number.length? text = some length) :
    number.scan? context text = some ⟨.number, .ended length⟩ := by
  simp only [scan?] at h ⊢
  split at h
  · cases h
  · next hletter => rw [if_neg hletter, Number.scan?, hlength, Option.map_some, Option.map_some]

/-- The openers of all rules. -/
def allOpeners : List Text :=
  all.flatMap openers

/-- Every rule is in the table of all rules. -/
theorem mem_all (rule : Rule) : rule ∈ all := by
  cases rule <;> decide

/-- The openers of a rule are among those of all rules. -/
theorem mem_allOpeners {rule : Rule} {opener : Text} (h : opener ∈ rule.openers) :
    opener ∈ allOpeners :=
  List.mem_flatMap_of_mem (mem_all rule) h

/-- A quoted literal is recognized only behind a prefix and its quote. -/
theorem exists_encoding {quote : Char} {text : Text} {extent : Extent}
    (h : Quoted.scan? quote text = some extent) :
    ∃ opener ∈ Quoted.encodings.map (· ++ [quote]), opener <+: text := by
  simp only [Quoted.scan?, Quoted.openerLength?, Option.map_eq_some_iff] at h
  obtain ⟨_, ⟨encoding, hfind, -⟩, -⟩ := h
  exact ⟨_, List.mem_map_of_mem (List.mem_of_find?_eq_some hfind),
    List.isPrefixOf_iff_prefix.mp (List.find?_some
      (p := fun encoding => (encoding ++ [quote]).isPrefixOf text) hfind)⟩

/-- A rule with openers answers only behind one of them. -/
theorem exists_opener {rule : Rule} {context : Context} {text : Text} {extent : Extent}
    (h : rule.reach? context text = some extent) (hopeners : rule.openers ≠ []) :
    ∃ opener ∈ rule.openers, opener <+: text := by
  cases rule <;> simp only [reach?] at h
  case whitespace => exact absurd rfl hopeners
  case number => exact absurd rfl hopeners
  case word => exact absurd rfl hopeners
  case attributeSpec => exact ⟨_, List.mem_singleton_self _, Attribute.scan?_behind.pair_prefix h⟩
  case lineComment => exact ⟨_, List.mem_singleton_self _, Comment.line?_behind.pair_prefix h⟩
  case blockComment => exact ⟨_, List.mem_singleton_self _, Comment.block?_behind.pair_prefix h⟩
  case rawString => exact ⟨_, List.mem_singleton_self _, RawString.scan?_behind.pair_prefix h⟩
  case directive =>
    unfold Directive.scan? at h
    split at h
    · next body => exact ⟨_, List.mem_singleton_self _, body, rfl⟩
    · cases h
  case string => exact exists_encoding h
  case character => exact exists_encoding h

/-- No proper beginning of an opener starts with an opener. -/
theorem not_opener_prefix {rule : Rule} {text opener : Text}
    (h : EndsInside rule.openers text) (hopener : opener ∈ allOpeners) : ¬ opener <+: text := by
  have hall : ∀ outer ∈ allOpeners, ∀ length < outer.length, ∀ opener ∈ allOpeners,
      ¬ opener <+: outer.take length := by decide
  obtain ⟨outer, houter, hlt, htext⟩ := h.eq_take
  rw [htext]
  exact hall outer (mem_allOpeners houter) _ hlt opener hopener

/-- A text that ends inside an opener has at most one character behind its first. -/
theorem drop_one_of_endsInside {rule : Rule} {text : Text} (h : EndsInside rule.openers text) :
    text.drop 1 ∈ [[], ['8']] := by
  have hall : ∀ outer ∈ allOpeners, ∀ length < outer.length,
      (outer.take length).drop 1 ∈ [[], ['8']] := by decide
  obtain ⟨outer, houter, hlt, htext⟩ := h.eq_take
  rw [htext]
  exact hall outer (mem_allOpeners houter) _ hlt

/-- No opener runs over a newline: what opens a text that goes on with a newline opens the text
in front of it. -/
theorem opener_prefix_of_newline {opener text more : Text} (hopener : opener ∈ allOpeners)
    (h : opener <+: text ++ '\n' :: more) : opener <+: text := by
  have hall : ∀ opener ∈ allOpeners, '\n' ∉ opener := by decide
  by_cases hle : opener.length ≤ text.length
  · exact List.prefix_of_prefix_length_le h (List.prefix_append text _) hle
  · have hline : text ++ ['\n'] <+: text ++ '\n' :: more :=
      (List.prefix_append_right_inj text).mpr ⟨more, rfl⟩
    have hin : text ++ ['\n'] <+: opener := by
      refine List.prefix_of_prefix_length_le hline h ?_
      rw [List.length_append, List.length_singleton]
      omega
    exact absurd (hin.subset (List.mem_append_right text (List.mem_singleton_self _)))
      (hall opener hopener)

/-- A construct that is complete wherever the text ends is never open. -/
theorem closed_of_endsWithText {rule : Rule} {context : Context} {text : Text} {extent : Extent}
    (h : rule.reach? context text = some extent) (hends : rule.endsWithText = true) :
    extent.closed = true := by
  cases rule <;> simp only [reach?, endsWithText, Bool.false_eq_true] at h hends
  case whitespace =>
    simp only [Space.scan?] at h
    split at h
    · cases h
      rfl
    · cases h
  case lineComment =>
    unfold Comment.line? at h
    split at h
    · cases h
      rfl
    · cases h
  case directive =>
    unfold Directive.scan? at h
    split at h
    · split at h
      · cases h
        rfl
      · cases h
    · cases h
  case number =>
    split at h
    · cases h
    · simp only [Number.scan?, Option.map_eq_some_iff] at h
      obtain ⟨_, -, rfl⟩ := h
      rfl
  case word =>
    unfold Word.scan? at h
    split at h
    · split at h
      · cases h
        rfl
      · cases h
    · cases h

/-- What needs a closing delimiter has an opener. -/
theorem openers_ne_nil {rule : Rule} : rule.endsWithText = false → rule.openers ≠ [] := by
  cases rule <;> decide

/-- What is open lacks a closing delimiter. -/
theorem endsWithText_of_open {rule : Rule} {context : Context} {text : Text} {extent : Extent}
    (h : rule.reach? context text = some extent) (hopen : extent.closed = false) :
    rule.endsWithText = false := by
  cases he : rule.endsWithText with
  | false => rfl
  | true =>
    rw [closed_of_endsWithText h he] at hopen
    cases hopen

/-- A construct that lacks its closing delimiter has its opener. -/
theorem exists_opener_of_open {rule : Rule} {context : Context} {text : Text} {extent : Extent}
    (h : rule.reach? context text = some extent) (hopen : extent.closed = false) :
    ∃ opener ∈ allOpeners, opener <+: text := by
  obtain ⟨opener, hmem, hbegin⟩ := exists_opener h (openers_ne_nil (endsWithText_of_open h hopen))
  exact ⟨opener, mem_allOpeners hmem, hbegin⟩

/-- What goes beyond a newline is whitespace, a construct without its closing delimiter, or a
directive with a backslash in front of the newline. -/
theorem beyond_newline {rule : Rule} {context : Context} {text more : Text}
    {extent : Extent} (htext : text ≠ [])
    (h : rule.reach? context (text ++ '\n' :: more) = some extent)
    (hlt : text.length < extent.length) :
    rule.endsWithText = false ∨ rule = whitespace ∨
      (rule = directive ∧ text.getLast? = some '\\') := by
  cases rule <;> simp only [reach?] at h
  case lineComment =>
    have hr := Text.runLength_append_le (· ≠ '\n') text more (c := '\n') rfl
    unfold Comment.line? at h
    split at h
    · cases h
      exact absurd hr (Nat.not_le_of_lt hlt)
    · cases h
  case directive =>
    right
    right
    refine ⟨rfl, ?_⟩
    unfold Directive.scan? at h
    split at h
    · next rest hrest =>
      cases text with
      | nil => exact absurd rfl htext
      | cons c text =>
        obtain ⟨rfl, rfl⟩ := List.cons.inj hrest
        split at h
        · cases h
          exact Directive.getLast_of_lineFrom '#' 1 text more hlt
        · cases h
    · cases h
  case number =>
    split at h
    · cases h
    · exact absurd (Number.length_le_of_newline htext h) (Nat.not_le_of_lt hlt)
  case word =>
    cases text with
    | nil => exact absurd rfl htext
    | cons c text =>
      have hr := Text.runLength_append_le Text.isWordPart text more (c := '\n') rfl
      simp only [List.cons_append, Word.scan?] at h
      split at h
      · cases h
        exact absurd (Nat.succ_le_succ hr) (Nat.not_le_of_lt hlt)
      · cases h
  case whitespace => exact Or.inr (Or.inl rfl)
  all_goals exact Or.inl rfl

/-- A text that goes on with a newline is never too short for a rule that goes beyond it. -/
theorem not_short_of_beyond_newline {rule : Rule} {context : Context} {text more : Text}
    {extent : Extent} (htext : text ≠ [])
    (h : rule.reach? context (text ++ '\n' :: more) = some extent)
    (hlt : text.length < extent.length) : ¬ rule.Short text := by
  rintro (hnil | hinside | ⟨rfl, -⟩)
  · exact htext hnil
  · have hopeners : rule.openers ≠ [] := by
      rintro hnil
      obtain ⟨opener, hmem, -⟩ := hinside
      rw [hnil] at hmem
      cases hmem
    obtain ⟨opener, hmem, hbegin⟩ := exists_opener h hopeners
    exact not_opener_prefix hinside (mem_allOpeners hmem)
      (opener_prefix_of_newline (mem_allOpeners hmem) hbegin)
  · rcases beyond_newline htext h hlt with h | h | ⟨h, -⟩ <;> cases h

end Rule

end CodeTint.Scan
