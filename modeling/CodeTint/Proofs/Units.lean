import CodeTint.Command.Arguments
import Mathlib.Data.List.Induction

/-!
# Arguments as units

The words behind a command are accepted exactly when they are units written one after another, and
then they are read as these units. What the units ask for does not depend on how units of different
sorts are mixed: every choice is that of the last unit that makes it, a switch is on when it occurs,
and operands keep their order.
-/

namespace CodeTint.Command

/-- A unit that can stand among arguments: an operand is no option, anything else is free. -/
def Item.WellFormed : Item → Prop
  | .operand value => isOperand value = true
  | _ => True

instance : (item : Item) → Decidable item.WellFormed
  | .operand value => inferInstanceAs (Decidable (isOperand value = true))
  | .scheme _ | .classPrefix _ | .element _ | .configPath _ | .json | .verbose => .isTrue trivial

namespace Meaning

/-- The word of an option announces its value. -/
theorem ofWord_word (option : ValueOption) : ofWord option.word = .valueOption option := by
  cases option <;> decide

/-- A word that stands for itself is an operand. -/
theorem ofWord_of_isOperand {word : String} (h : isOperand word = true) :
    ofWord word = .unit (.operand word) := by
  have hoption : ∀ option : ValueOption, option.word ≠ word := by
    intro option hword
    rw [← hword] at h
    revert h
    cases option <;> decide
  have hnone : (ValueOption.all.find? fun candidate => candidate.word == word) = none := by
    rw [List.find?_eq_none]
    intro candidate _ hcandidate
    exact hoption candidate (eq_of_beq hcandidate)
  have hjson : word ≠ jsonWord := by
    rintro rfl
    revert h
    decide
  have hverbose : word ≠ verboseWord := by
    rintro rfl
    revert h
    decide
  rw [ofWord, hnone]
  dsimp only
  rw [if_neg hjson, if_neg hverbose, if_pos h]

/-- Only the word of an option announces a value. -/
theorem eq_word_of_valueOption {word : String} {option : ValueOption}
    (h : ofWord word = .valueOption option) : word = option.word := by
  rw [ofWord] at h
  split at h
  · next chosen hfind =>
    have hword := List.find?_some hfind
    rw [← Meaning.valueOption.inj h]
    exact (eq_of_beq hword).symm
  · split at h
    · cases h
    · split at h
      · cases h
      · split at h <;> cases h

/-- A word that is a whole unit is all that the unit is written with. -/
theorem words_of_unit {word : String} {item : Item} (h : ofWord word = .unit item) :
    item.words = [word] ∧ item.WellFormed := by
  rw [ofWord] at h
  split at h
  · cases h
  · split at h
    · next hjson =>
      rw [← Meaning.unit.inj h, hjson]
      exact ⟨rfl, trivial⟩
    · split at h
      · next hverbose =>
        rw [← Meaning.unit.inj h, hverbose]
        exact ⟨rfl, trivial⟩
      · split at h
        · next hoperand =>
          rw [← Meaning.unit.inj h]
          exact ⟨rfl, hoperand⟩
        · cases h

end Meaning

/-- A unit that is made of an option and its value is written with both. -/
theorem ValueOption.words_of_item {option : ValueOption} {value : String} {item : Item}
    (h : option.item value = .ok item) : item.words = [option.word, value] ∧ item.WellFormed := by
  cases option with
  | scheme =>
    rw [ValueOption.item] at h
    split at h
    · next found hfound =>
      cases h
      rw [Item.words, Scheme.name_of_ofName? hfound]
      exact ⟨rfl, trivial⟩
    · cases h
  | classPrefix => cases h; exact ⟨rfl, trivial⟩
  | element => cases h; exact ⟨rfl, trivial⟩
  | configPath => cases h; exact ⟨rfl, trivial⟩

/-- An option with a value in front of other words is read as their unit. -/
theorem readItems_option (option : ValueOption) {value : String} {item : Item}
    (h : option.item value = .ok item) (rest : List String) :
    readItems (option.word :: value :: rest) = (readItems rest).map (item :: ·) := by
  rw [readItems, Meaning.ofWord_word]
  dsimp only
  rw [h]
  cases readItems rest <;> rfl

/-- A word that is a whole unit in front of other words is read as that unit. -/
theorem readItems_unit {word : String} {item : Item} (h : Meaning.ofWord word = .unit item)
    (rest : List String) : readItems (word :: rest) = (readItems rest).map (item :: ·) := by
  rw [readItems, h]
  dsimp only
  cases readItems rest <;> rfl

/-- The words of a unit in front of other words are read as that unit. -/
theorem readItems_words_append {item : Item} (h : item.WellFormed) (rest : List String) :
    readItems (item.words ++ rest) = (readItems rest).map (item :: ·) := by
  cases item with
  | scheme value =>
    refine readItems_option .scheme ?_ rest
    rw [ValueOption.item, Scheme.ofName?_name]
  | classPrefix value => exact readItems_option .classPrefix rfl rest
  | element value => exact readItems_option .element rfl rest
  | configPath value => exact readItems_option .configPath rfl rest
  | json => exact readItems_unit (by decide) rest
  | verbose => exact readItems_unit (by decide) rest
  | operand value => exact readItems_unit (Meaning.ofWord_of_isOperand h) rest

/-- The words of units in front of other words are read as these units. -/
theorem readItems_flatMap_append {items : List Item} (h : ∀ item ∈ items, item.WellFormed)
    (rest : List String) :
    readItems (items.flatMap Item.words ++ rest) = (readItems rest).map (items ++ ·) := by
  induction items with
  | nil =>
    rw [List.flatMap_nil, List.nil_append]
    cases readItems rest <;> rfl
  | cons item items ih =>
    rw [List.flatMap_cons, List.append_assoc,
      readItems_words_append (h item List.mem_cons_self),
      ih fun other hother => h other (List.mem_cons_of_mem _ hother)]
    cases readItems rest <;> rfl

/-- What is read behind a unit comes behind it. -/
theorem exists_behind {reading : Except ArgumentFault (List Item)} {item : Item}
    {items : List Item} (h : reading.map (item :: ·) = .ok items) :
    ∃ behind, reading = .ok behind ∧ items = item :: behind := by
  cases reading with
  | error fault => cases h
  | ok behind => exact ⟨behind, rfl, (Except.ok.inj h).symm⟩

/-- Units that are written one after another can stand in front of what is read behind them. -/
theorem words_of_cons {word : String} (words : List String) {rest : List String} {item : Item}
    {behind : List Item} (hitem : item.words = word :: words ∧ item.WellFormed)
    (hbehind : rest = behind.flatMap Item.words ∧ ∀ other ∈ behind, other.WellFormed) :
    word :: (words ++ rest) = (item :: behind).flatMap Item.words ∧
      ∀ other ∈ item :: behind, other.WellFormed := by
  constructor
  · rw [List.flatMap_cons, hitem.1, ← hbehind.1, List.cons_append]
  · intro other hother
    rcases List.mem_cons.mp hother with rfl | hother
    · exact hitem.2
    · exact hbehind.2 other hother

/-- Words that are read as units are those units written one after another. -/
theorem words_of_readItems {words : List String} {items : List Item}
    (h : readItems words = .ok items) :
    words = items.flatMap Item.words ∧ ∀ item ∈ items, item.WellFormed := by
  induction words using readItems.induct generalizing items with
  | case1 =>
    cases h
    exact ⟨rfl, fun _ hitem => absurd hitem List.not_mem_nil⟩
  | case2 word option hword =>
    rw [readItems, hword] at h
    cases h
  | case3 word option hword value rest ih =>
    cases hitem : option.item value with
    | error fault =>
      rw [readItems, hword] at h
      dsimp only at h
      rw [hitem] at h
      cases h
    | ok item =>
      have hword' := Meaning.eq_word_of_valueOption hword
      rw [hword', readItems_option option hitem] at h
      obtain ⟨behind, hread, rfl⟩ := exists_behind h
      rw [hword']
      exact words_of_cons [value] (ValueOption.words_of_item hitem) (ih hread)
  | case4 word rest item hword ih =>
    rw [readItems_unit hword] at h
    obtain ⟨behind, hread, rfl⟩ := exists_behind h
    exact words_of_cons [] (Meaning.words_of_unit hword) (ih hread)
  | case5 word rest hword =>
    rw [readItems, hword] at h
    cases h

/-- Words are read as some units exactly when they are those units written one after another. -/
theorem readItems_eq_ok_iff {words : List String} {items : List Item} :
    readItems words = .ok items ↔
      words = items.flatMap Item.words ∧ ∀ item ∈ items, item.WellFormed := by
  constructor
  · exact words_of_readItems
  · rintro ⟨rfl, hitems⟩
    have hread := readItems_flatMap_append hitems []
    rw [List.append_nil] at hread
    rw [hread]
    exact congrArg Except.ok (List.append_nil items)

/-- Words are written by one list of units only. -/
theorem eq_of_flatMap_words {items others : List Item} (hitems : ∀ item ∈ items, item.WellFormed)
    (hothers : ∀ item ∈ others, item.WellFormed)
    (h : items.flatMap Item.words = others.flatMap Item.words) : items = others := by
  have hread := readItems_eq_ok_iff.mpr ⟨h, hothers⟩
  rw [readItems_eq_ok_iff.mpr ⟨rfl, hitems⟩] at hread
  exact Except.ok.inj hread

/-- Arguments are accepted exactly when they are a command and units behind it. -/
theorem Invocation.ofWords_eq_ok_iff {words : List String} {invocation : Invocation} :
    ofWords words = .ok invocation ↔
      ∃ command items, words = command :: items.flatMap Item.words ∧
        (∀ item ∈ items, item.WellFormed) ∧ invocation = ofItems command items := by
  cases words with
  | nil =>
    constructor
    · intro h
      cases h
    · rintro ⟨command, items, h, -⟩
      cases h
  | cons command rest =>
    constructor
    · intro h
      rw [ofWords] at h
      cases hread : readItems rest with
      | error fault =>
        rw [hread] at h
        cases h
      | ok items =>
        rw [hread] at h
        obtain ⟨hwords, hitems⟩ := words_of_readItems hread
        exact ⟨command, items, by rw [← hwords], hitems, (Except.ok.inj h).symm⟩
    · rintro ⟨first, items, hwords, hitems, rfl⟩
      obtain ⟨rfl, rfl⟩ := List.cons.inj hwords
      rw [ofWords, readItems_eq_ok_iff.mpr ⟨rfl, hitems⟩]
      rfl

namespace Item

/-- The scheme that a unit chooses. -/
def scheme? : Item → Option Scheme
  | .scheme value => some value
  | _ => none

/-- The words in front of class names that a unit chooses. -/
def classPrefix? : Item → Option String
  | .classPrefix value => some value
  | _ => none

/-- The element that a unit chooses. -/
def element? : Item → Option String
  | .element value => some value
  | _ => none

/-- The file with settings that a unit names. -/
def configPath? : Item → Option String
  | .configPath value => some value
  | _ => none

/-- The operand that a unit is. -/
def operand? : Item → Option String
  | .operand value => some value
  | _ => none

/-- What the last of some units says that says anything of a sort. -/
def last? {α : Type} (sort : Item → Option α) (items : List Item) : Option α :=
  (items.filterMap sort).getLast?

/-- One more unit replaces what was said before if it says anything of the sort. -/
theorem last?_append_singleton {α : Type} (sort : Item → Option α) (items : List Item)
    (item : Item) : last? sort (items ++ [item]) = (sort item).or (last? sort items) := by
  rw [last?, List.filterMap_append]
  cases hitem : sort item with
  | none => simp [hitem, last?]
  | some value => simp [hitem]

end Item

/-- What units ask for is told sort by sort: the last choice of each sort, the switches that occur,
and the operands in their order. -/
theorem Invocation.ofItems_eq (command : String) (items : List Item) :
    ofItems command items =
      { command := command
        choices :=
          { scheme := Item.last? Item.scheme? items
            classPrefix := Item.last? Item.classPrefix? items
            element := Item.last? Item.element? items }
        configPath := Item.last? Item.configPath? items
        json := decide (Item.json ∈ items)
        verbose := decide (Item.verbose ∈ items)
        operands := items.filterMap Item.operand? } := by
  induction items using List.reverseRecOn with
  | nil => rfl
  | append_singleton items item ih =>
    have hadd : ofItems command (items ++ [item]) = (ofItems command items).add item := by
      rw [ofItems, List.foldl_append]
      rfl
    rw [hadd, ih]
    simp only [Item.last?_append_singleton, List.filterMap_append, List.mem_append,
      List.mem_singleton]
    cases item <;>
      simp [add, Item.scheme?, Item.classPrefix?, Item.element?, Item.configPath?, Item.operand?]

/-- Reading undoes every way of writing arguments. A command and units behind it, in any order and
any number and with any values, are accepted, and then each option has the value of its last unit, a
switch is on when it occurs, and the operands keep their order. All arguments that are accepted are
a command and units in exactly one way. -/
theorem ofWords_undoes_words :
    (∀ command items, (∀ item ∈ items, item.WellFormed) →
      Invocation.ofWords (command :: items.flatMap Item.words) = .ok
        { command := command
          choices :=
            { scheme := Item.last? Item.scheme? items
              classPrefix := Item.last? Item.classPrefix? items
              element := Item.last? Item.element? items }
          configPath := Item.last? Item.configPath? items
          json := decide (Item.json ∈ items)
          verbose := decide (Item.verbose ∈ items)
          operands := items.filterMap Item.operand? }) ∧
      ∀ words invocation, Invocation.ofWords words = .ok invocation →
        ∃! written : String × List Item,
          words = written.1 :: written.2.flatMap Item.words ∧
            ∀ item ∈ written.2, item.WellFormed := by
  constructor
  · intro command items hitems
    rw [← Invocation.ofItems_eq]
    exact Invocation.ofWords_eq_ok_iff.mpr ⟨command, items, rfl, hitems, rfl⟩
  · intro words invocation h
    obtain ⟨command, items, rfl, hitems, -⟩ := Invocation.ofWords_eq_ok_iff.mp h
    refine ⟨(command, items), ⟨rfl, hitems⟩, ?_⟩
    rintro ⟨other, others⟩ ⟨hwords, hothers⟩
    obtain ⟨rfl, hsame⟩ := List.cons.inj hwords
    rw [eq_of_flatMap_words hitems hothers hsame]

/-- A command that looks like a switch, values that look like options, and a class name prefix and
a switch given twice. -/
theorem ofWords_undoes_words_flags :
    Invocation.ofWords ["--json", "--prefix", "--json", "-", "--verbose", "--scheme", "split",
        "--config", "--config", "a.cpp", "--verbose", "--prefix", "-"] = .ok
      { command := "--json"
        choices := { scheme := some .split, classPrefix := some "-", element := none }
        configPath := some "--config"
        json := false
        verbose := true
        operands := ["-", "a.cpp"] } := by
  have hitems : ∀ item ∈ [Item.classPrefix "--json", .operand "-", .verbose, .scheme .split,
      .configPath "--config", .operand "a.cpp", .verbose, .classPrefix "-"],
      item.WellFormed := by
    decide
  exact ofWords_undoes_words.1 "--json" _ hitems

end CodeTint.Command
