import CodeTint.Proofs.Lookahead

/-!
# Where a rule answers

Whether a rule answers is decided by the first characters of the text, and for directives and
numbers by the context as well. Most rules answer behind one of their openers, the others at a class
of characters. Openers and classes keep all rules apart, except that a letter in front of a quote
begins a word too.
-/

namespace CodeTint

namespace Scan

open Text

namespace Rule

/-- The characters at which a rule without openers answers. -/
def starts : Rule → Char → Bool
  | whitespace => isSpace
  | number => Char.isDigit
  | word => isWordStart
  | _ => fun _ => false

/-- The text begins as the constructs of the rule do. -/
def Begins (rule : Rule) (text : Text) : Prop :=
  (∃ opener ∈ rule.openers, opener <+: text) ∨ ∃ c ∈ text.head?, rule.starts c = true

/-- The context does not rule the construct out. -/
def Allowed (rule : Rule) (context : Context) : Prop :=
  match rule with
  | directive => context.lineBlank = true
  | number => context.behindLetter = false
  | _ => True

end Rule

/-- Whitespace is recognized at a character of whitespace. -/
theorem Space.isSome_scan?_cons (c : Char) (rest : Text) :
    (scan? (c :: rest)).isSome = isSpace c := by
  have hpos := runLength_cons_pos_iff isSpace c rest
  rw [Bool.eq_iff_iff, ← hpos, scan?]
  split
  · next hlength => exact iff_of_true rfl hlength
  · next hlength => exact iff_of_false Bool.false_ne_true hlength

/-- A number is recognized at a digit. -/
theorem Number.isSome_scan?_cons (c : Char) (rest : Text) :
    (scan? (c :: rest)).isSome = c.isDigit := by
  rw [scan?, Option.isSome_map, length?_cons, Bool.eq_iff_iff]
  split <;> simp [*]

/-- A word is recognized at a letter or underscore. -/
theorem Word.isSome_scan?_cons (c : Char) (rest : Text) :
    (scan? (c :: rest)).isSome = isWordStart c := by
  rw [scan?, Bool.eq_iff_iff]
  split <;> simp [*]

/-- A quoted literal is recognized behind each of its openers. -/
theorem Quoted.isSome_scan?_of_opener {quote : Char} {opener text : Text}
    (hopener : opener ∈ encodings.map (· ++ [quote])) (hbegin : opener <+: text) :
    (scan? quote text).isSome := by
  obtain ⟨encoding, hencoding, rfl⟩ := List.mem_map.mp hopener
  rw [scan?, Option.isSome_map, openerLength?, Option.isSome_map, List.find?_isSome]
  exact ⟨encoding, hencoding, List.isPrefixOf_iff_prefix.mpr hbegin⟩

namespace Rule

/-- A rule answers behind each of its openers when the context allows it. -/
theorem isSome_reach?_of_opener {rule : Rule} {context : Context} {opener text : Text}
    (hallowed : rule.Allowed context) (hopener : opener ∈ rule.openers)
    (hbegin : opener <+: text) : (rule.reach? context text).isSome := by
  obtain ⟨rest, rfl⟩ := hbegin
  cases rule
  case string => exact Quoted.isSome_scan?_of_opener hopener (List.prefix_append _ rest)
  case character => exact Quoted.isSome_scan?_of_opener hopener (List.prefix_append _ rest)
  case directive =>
    have hblank : context.lineBlank = true := hallowed
    rw [List.mem_singleton.mp hopener, reach?, hblank]
    rfl
  case whitespace => cases hopener
  case number => cases hopener
  case word => cases hopener
  all_goals
    rw [List.mem_singleton.mp hopener]
    rfl

/-- A rule without openers answers at the characters of its class when the context allows it. -/
theorem isSome_reach?_cons {rule : Rule} {context : Context} (hallowed : rule.Allowed context)
    (hopeners : rule.openers = []) (c : Char) (rest : Text) :
    (rule.reach? context (c :: rest)).isSome = rule.starts c := by
  cases rule
  case whitespace => exact Space.isSome_scan?_cons c rest
  case number =>
    have hletter : ¬ context.behindLetter = true := by
      rw [show context.behindLetter = false from hallowed]
      exact Bool.false_ne_true
    rw [reach?, if_neg hletter]
    exact Number.isSome_scan?_cons c rest
  case word => exact Word.isSome_scan?_cons c rest
  all_goals cases hopeners

/-- A rule answers only where the context allows it. -/
theorem allowed_of_reach? {rule : Rule} {context : Context} {text : Text} {extent : Extent}
    (h : rule.reach? context text = some extent) : rule.Allowed context := by
  cases rule
  case directive =>
    simp only [reach?, Directive.scan?] at h
    split at h
    · split at h
      · next hblank => exact hblank
      · cases h
    · cases h
  case number =>
    simp only [reach?] at h
    split at h
    · cases h
    · next hletter => exact Bool.eq_false_iff.mpr hletter
  all_goals trivial

/-- The extent of what a rule reaches fits the text. -/
theorem reach?_fits {rule : Rule} {context : Context} {text : Text} {extent : Extent}
    (h : rule.reach? context text = some extent) : extent.Fits text := by
  have hscan : rule.scan? context text =
      some ⟨rule.kindOf (text.take extent.length), extent⟩ := by
    rw [scan?_eq, h, Option.map_some]
  exact scan?_fits hscan

/-- A rule answers where the context allows it and the text begins as its constructs do, and nowhere
else. -/
theorem isSome_reach?_iff (rule : Rule) (context : Context) (text : Text) :
    (rule.reach? context text).isSome ↔ rule.Allowed context ∧ rule.Begins text := by
  constructor
  · intro h
    obtain ⟨extent, hextent⟩ := Option.isSome_iff_exists.mp h
    have hallowed := allowed_of_reach? hextent
    refine ⟨hallowed, ?_⟩
    by_cases hopeners : rule.openers = []
    · cases text with
      | nil =>
        have hfits := reach?_fits hextent
        exact absurd hfits.within (Nat.not_le_of_lt hfits.positive)
      | cons c rest =>
        rw [isSome_reach?_cons hallowed hopeners] at h
        exact Or.inr ⟨c, rfl, h⟩
    · exact Or.inl (exists_opener hextent hopeners)
  · rintro ⟨hallowed, ⟨opener, hopener, hbegin⟩ | ⟨c, hc, hstarts⟩⟩
    · exact isSome_reach?_of_opener hallowed hopener hbegin
    · have hopeners : rule.openers = [] := by
        revert hstarts
        cases rule <;> simp [starts, openers]
      obtain ⟨rest, rfl⟩ := List.head?_eq_some_iff.mp hc
      rw [isSome_reach?_cons hallowed hopeners, hstarts]

/-- A rule answers where the context allows it, at a text that begins as its constructs do. -/
theorem begins_of_reach? {rule : Rule} {context : Context} {text : Text} {extent : Extent}
    (h : rule.reach? context text = some extent) : rule.Allowed context ∧ rule.Begins text :=
  (isSome_reach?_iff rule context text).mp (Option.isSome_of_eq_some h)

/-- Every rule but the one for attributes is always in force. -/
theorem mem_inForce {attributes : Bool} {rule : Rule} (h : rule ≠ attributeSpec) :
    rule ∈ inForce attributes all := by
  rw [inForce, List.mem_filter, decide_eq_true h, Bool.or_true]
  exact ⟨mem_all rule, rfl⟩

/-- What begins a construct of a rule without openers is a character of its class. -/
theorem Begins.exists_starts {rule : Rule} {text : Text} (h : rule.Begins text)
    (hopeners : rule.openers = []) : ∃ c ∈ text.head?, rule.starts c = true := by
  rcases h with ⟨opener, hopener, -⟩ | hstarts
  · rw [hopeners] at hopener
    cases hopener
  · exact hstarts

/-- The rules with openers that start with a letter. -/
def literals : List Rule :=
  [rawString, string, character]

/-- The openers of different rules do not begin each other. -/
theorem eq_of_opener_begins {first last : Rule} {opener other : Text}
    (hopener : opener ∈ first.openers) (hother : other ∈ last.openers)
    (h : opener <+: other) : first = last := by
  have hall : ∀ first ∈ all, ∀ last ∈ all, ∀ opener ∈ first.openers, ∀ other ∈ last.openers,
      opener <+: other → first = last := by
    decide
  exact hall first (mem_all first) last (mem_all last) opener hopener other hother h

/-- A class of characters meets an opener only where a letter stands in front of a quote. -/
theorem eq_word_of_opener {rule other : Rule} {opener text : Text} {c : Char}
    (hopener : opener ∈ rule.openers) (hbegin : opener <+: text) (hc : c ∈ text.head?)
    (hstarts : other.starts c = true) : other = word ∧ rule ∈ literals := by
  have hall : ∀ rule ∈ all, ∀ opener ∈ rule.openers, opener ≠ [] ∧ ∀ other ∈ all,
      opener.head?.any other.starts = true → other = word ∧ rule ∈ literals := by
    decide
  obtain ⟨hne, hclass⟩ := hall rule (mem_all rule) opener hopener
  have hhead : opener.head? = text.head? := by
    obtain ⟨rest, rfl⟩ := hbegin
    cases opener with
    | nil => exact absurd rfl hne
    | cons d opener => rfl
  have hany : opener.head?.any other.starts = true := by
    rw [hhead, Option.mem_def.mp hc]
    exact hstarts
  exact hclass other (mem_all other) hany

/-- The classes of different rules have no character in common. -/
theorem eq_of_starts {first last : Rule} {c : Char} (hfirst : first.starts c = true)
    (hlast : last.starts c = true) : first = last := by
  have hdigit : c.isDigit = true → isSpace c = false ∧ isWordStart c = false :=
    fun h => ⟨isSpace_eq_false_of_isDigit h, isWordStart_eq_false_of_isDigit h⟩
  have hword : isWordStart c = true → isSpace c = false :=
    fun h => isSpace_eq_false_of_isWordPart (isWordPart_of_isWordStart h)
  cases first <;> cases last <;> simp_all [starts]

/-- Of two rules whose constructs begin the same text one is the rule for words and the other one
for literals, unless they are the same. -/
theorem Begins.eq_or_word {first last : Rule} {text : Text} (hfirst : first.Begins text)
    (hlast : last.Begins text) :
    first = last ∨ (first = word ∧ last ∈ literals) ∨ (last = word ∧ first ∈ literals) := by
  rcases hfirst with ⟨opener, hopener, hbegin⟩ | ⟨c, hc, hstarts⟩
  · rcases hlast with ⟨other, hother, hbegins⟩ | ⟨d, hd, hclass⟩
    · rcases List.prefix_or_prefix_of_prefix hbegin hbegins with h | h
      · exact Or.inl (eq_of_opener_begins hopener hother h)
      · exact Or.inl (eq_of_opener_begins hother hopener h).symm
    · exact Or.inr (Or.inr (eq_word_of_opener hopener hbegin hd hclass))
  · rcases hlast with ⟨other, hother, hbegins⟩ | ⟨d, hd, hclass⟩
    · exact Or.inr (Or.inl (eq_word_of_opener hother hbegins hc hstarts))
    · have hsame : c = d := Option.mem_unique hc hd
      exact Or.inl (eq_of_starts hstarts (hsame ▸ hclass))

end Rule

end Scan

end CodeTint
