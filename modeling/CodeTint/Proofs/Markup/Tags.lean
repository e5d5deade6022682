import CodeTint.Highlight
import CodeTint.Proofs.Markup.Escaping
import CodeTint.Proofs.Merging
import Mathlib.Algebra.Ring.Parity

/-!
# The tags of the markup

Every angle bracket of the markup belongs to a tag, and every ampersand to an entity, as long as
the element and the words in front of class names hold none of these characters themselves. Tags
come in pairs, one around each classified fragment, so they open and close in turn. Nothing in the
source text can add a tag.
-/

namespace CodeTint

/-- Neither the element nor the words in front of class names hold a reserved character. -/
def Config.Inert (config : Config) : Prop :=
  ∀ c ∈ Markup.reserved, c ∉ config.element.toList ∧ c ∉ config.classPrefix.toList

/-- The settings in force unless others are chosen hold no reserved character. -/
theorem Config.inert_standard : Config.standard.Inert := by
  intro c hc
  rcases Markup.mem_reserved.mp hc with rfl | rfl | rfl <;> decide

namespace Markup

/-- A tag with this text between its angle brackets. -/
def tag (inside : Text) : Text :=
  '<' :: (inside ++ ['>'])

/-- What stands between the brackets of a tag in front of a fragment of a class. -/
def openInside (config : Config) (className : String) : Text :=
  config.element.toList ++ (" class=\"".toList ++ (config.classPrefix.toList ++
    (className.toList ++ ['"'])))

/-- What stands between the brackets of a tag behind a classified fragment. -/
def closeInside (config : Config) : Text :=
  '/' :: config.element.toList

/-- The tag in front of a fragment is a tag. -/
theorem openTag_eq (config : Config) (className : String) :
    openTag config className = tag (openInside config className) := by
  have hend : "\">".toList = ['"', '>'] := rfl
  simp only [openTag, tag, openInside, hend, List.append_assoc, List.cons_append, List.nil_append]

/-- The tag behind a fragment is a tag. -/
theorem closeTag_eq (config : Config) : closeTag config = tag (closeInside config) := rfl

/-- A fragment is plain and written bare, or it has a class and is written in its tags. -/
theorem renderFragment_cases (config : Config) (fragment : Fragment) :
    (fragment.isPlain = true ∧ renderFragment config fragment = escape fragment.text) ∨
      (fragment.isPlain = false ∧ ∃ className, fragment.category.className? = some className ∧
        renderFragment config fragment = tag (openInside config className) ++
          (escape fragment.text ++ tag (closeInside config))) := by
  cases hclass : fragment.category.className? with
  | none =>
    have hplain := (Category.className?_eq_none_iff _).mp hclass
    exact Or.inl ⟨hplain, renderFragment_of_isPlain config hplain⟩
  | some className =>
    refine Or.inr ⟨?_, className, rfl, ?_⟩
    · rw [← Bool.not_eq_true, Fragment.isPlain, ← Category.className?_eq_none_iff, hclass]
      exact Option.some_ne_none className
    · rw [renderFragment, hclass]
      simp only [openTag_eq, closeTag_eq, List.append_assoc]

/-- A class name consists of letters, so it has no quote and no reserved character. -/
theorem not_mem_className {category : Category} {className : String} {c : Char}
    (h : category.className? = some className) (hc : c ∈ '"' :: reserved) :
    c ∉ className.toList := by
  have hall : ∀ category ∈ Category.all, ∀ className ∈ category.className?,
      className.toList.all Char.isAlpha = true := by decide
  have hletters := hall category (Category.mem_all category) className h
  have hletter : c.isAlpha = false := by
    rcases List.mem_cons.mp hc with rfl | hc
    · decide
    · rcases mem_reserved.mp hc with rfl | rfl | rfl <;> decide
  intro hmem
  rw [List.all_eq_true.mp hletters c hmem] at hletter
  cases hletter

/-- Inside an opening tag no reserved character stands that the settings do not bring in. -/
theorem not_mem_openInside {config : Config} {category : Category} {className : String}
    {c : Char} (h : category.className? = some className) (hc : c ∈ reserved)
    (helement : c ∉ config.element.toList) (hlead : c ∉ config.classPrefix.toList) :
    c ∉ openInside config className := by
  have hclass := not_mem_className h (List.mem_cons_of_mem '"' hc)
  have hfixed : c ∉ " class=\"".toList ∧ c ∉ ['"'] := by
    rcases mem_reserved.mp hc with rfl | rfl | rfl <;> decide
  simp only [openInside, List.mem_append, not_or]
  exact ⟨helement, hfixed.1, hlead, hclass, hfixed.2⟩

/-- Inside a closing tag no reserved character stands that the element does not bring in. -/
theorem not_mem_closeInside {config : Config} {c : Char} (hc : c ∈ reserved)
    (helement : c ∉ config.element.toList) : c ∉ closeInside config := by
  have hslash : c ≠ '/' := by
    rcases mem_reserved.mp hc with rfl | rfl | rfl <;> decide
  exact List.not_mem_cons_of_ne_of_not_mem hslash helement

/-- The text opens with the tag in front of a fragment of some class. -/
def Opens (config : Config) (text : Text) : Prop :=
  ∃ category className, Category.className? category = some className ∧
    openTag config className <+: text

/-- The text opens with the tag behind a classified fragment. -/
def Closes (config : Config) (text : Text) : Prop :=
  closeTag config <+: text

variable {config : Config}

/-- No text opens with both kinds of tags. -/
theorem not_closes_of_opens (hconfig : config.Inert) {text : Text} (hopens : Opens config text) :
    ¬ Closes config text := by
  obtain ⟨category, className, hclass, rest, rfl⟩ := hopens
  rintro ⟨other, hother⟩
  have hreserved : '>' ∈ reserved := by decide
  obtain ⟨helement, hlead⟩ := hconfig '>' hreserved
  rw [openTag_eq, closeTag_eq, tag, tag, List.cons_append, List.cons_append, List.append_assoc,
    List.append_assoc] at hother
  -- the first closing bracket is where either tag ends
  have hinside := (Text.eq_of_append_cons_eq (not_mem_closeInside hreserved helement)
    (not_mem_openInside hclass hreserved helement hlead) (List.cons.inj hother).2).1
  have hlength := congrArg List.length hinside
  have hfixed : " class=\"".toList.length = 8 := rfl
  simp only [closeInside, openInside, List.length_cons, List.length_append, hfixed] at hlength
  omega

/-- A tag holds no other characters than its brackets and what is between them. -/
theorem not_mem_tag {c : Char} (hleft : c ≠ '<') (hright : c ≠ '>') {inside : Text}
    (h : c ∉ inside) : c ∉ tag inside := by
  simp only [tag, List.mem_cons, List.mem_append, List.not_mem_nil, or_false, not_or]
  exact ⟨hleft, h, hright⟩

/-- A tag has one bracket of either kind. -/
theorem count_tag {c : Char} (hc : c ∈ reserved) (hamp : c ≠ '&') {inside : Text}
    (h : c ∉ inside) : (tag inside).count c = 1 := by
  have hbrackets : ['<'].count c + ['>'].count c = 1 := by
    rcases mem_reserved.mp hc with rfl | rfl | rfl
    · exact absurd rfl hamp
    · rfl
    · rfl
  have htag : tag inside = ['<'] ++ (inside ++ ['>']) := rfl
  rw [htag, List.count_append, List.count_append, List.count_eq_zero_of_not_mem h, Nat.zero_add]
  exact hbrackets

/-- A classified fragment is written with two brackets of either kind, a plain one with none. -/
theorem count_renderFragment (hconfig : config.Inert) {c : Char} (hc : c ∈ reserved)
    (hamp : c ≠ '&') (fragment : Fragment) :
    (renderFragment config fragment).count c = 2 * [fragment].countP (!·.isPlain) := by
  obtain ⟨helement, hlead⟩ := hconfig c hc
  have hescape := List.count_eq_zero_of_not_mem (not_mem_escape hc hamp fragment.text)
  rcases renderFragment_cases config fragment with
    ⟨hplain, heq⟩ | ⟨hplain, className, hclass, heq⟩
  · rw [heq, hescape, List.countP_singleton, hplain]
    rfl
  · rw [heq, List.count_append, List.count_append, hescape,
      count_tag hc hamp (not_mem_openInside hclass hc helement hlead),
      count_tag hc hamp (not_mem_closeInside hc helement), List.countP_singleton, hplain]
    rfl

/-- The markup has two brackets of either kind for each classified fragment. -/
theorem count_render (hconfig : config.Inert) {c : Char} (hc : c ∈ reserved) (hamp : c ≠ '&')
    (fragments : List Fragment) :
    (render config fragments).count c = 2 * fragments.countP (!·.isPlain) := by
  induction fragments with
  | nil => rfl
  | cons fragment fragments ih =>
    rw [← List.singleton_append, render_append, List.count_append, List.countP_append, ih,
      Nat.mul_add, ← count_renderFragment hconfig hc hamp, render, List.flatMap_singleton]

/-- An opening bracket in a text that begins with one and ends in a tag is either of the two. -/
theorem bracket_of_append_tag {inner inside front rest : Text} (hinner : '<' ∉ inner)
    (hinside : '<' ∉ inside) (h : '<' :: (inner ++ tag inside) = front ++ '<' :: rest) :
    front = [] ∨ (front.count '<' = 1 ∧ '<' :: rest = tag inside) := by
  have hclose : '<' ∉ inside ++ ['>'] := by
    simp only [List.mem_append, not_or]
    exact ⟨hinside, by decide⟩
  cases front with
  | nil => exact Or.inl rfl
  | cons c front =>
    rw [List.cons_append, List.cons.injEq] at h
    obtain ⟨rfl, h⟩ := h
    obtain ⟨passed, rfl, htag⟩ := Text.exists_of_append_eq hinner h
    cases passed with
    | nil =>
      rw [List.append_nil, List.count_cons_self, List.count_eq_zero_of_not_mem hinner]
      exact Or.inr ⟨rfl, htag.symm⟩
    | cons c passed =>
      rw [tag, List.cons_append, List.cons.injEq] at htag
      exact absurd (htag.2 ▸ List.mem_append_right passed List.mem_cons_self) hclose

/-- An opening bracket in a written fragment is the first character of one of its tags. -/
theorem bracket_of_renderFragment (hconfig : config.Inert) {fragment : Fragment}
    {front rest : Text} (h : renderFragment config fragment = front ++ '<' :: rest) :
    (front = [] ∧ Opens config ('<' :: rest)) ∨
      (front.count '<' = 1 ∧ Closes config ('<' :: rest)) := by
  have hreserved : '<' ∈ reserved := by decide
  obtain ⟨helement, hlead⟩ := hconfig '<' hreserved
  have hescape := not_mem_escape hreserved (by decide) fragment.text
  rcases renderFragment_cases config fragment with
    ⟨-, heq⟩ | ⟨-, className, hclass, heq⟩
  · rw [heq] at h
    exact absurd (h ▸ List.mem_append_right front List.mem_cons_self) hescape
  · have hinner : '<' ∉ openInside config className ++ '>' :: escape fragment.text := by
      simp only [List.mem_append, List.mem_cons, not_or]
      exact ⟨not_mem_openInside hclass hreserved helement hlead, by decide, hescape⟩
    have hsplit : renderFragment config fragment =
        '<' :: (openInside config className ++ '>' :: escape fragment.text ++
          tag (closeInside config)) := by
      rw [heq, tag]
      simp only [List.cons_append, List.append_assoc, List.nil_append]
    rcases bracket_of_append_tag hinner (not_mem_closeInside hreserved helement)
      (hsplit.symm.trans h) with rfl | ⟨hcount, hclose⟩
    · refine Or.inl ⟨rfl, fragment.category, className, hclass, ?_⟩
      rw [openTag_eq]
      exact ⟨_, heq.symm.trans h⟩
    · rw [hclose]
      exact Or.inr ⟨hcount, List.prefix_rfl⟩

/-- Behind an even number of opening brackets a tag opens, behind an odd number it closes. -/
theorem bracket_of_render (hconfig : config.Inert) {fragments : List Fragment}
    {front rest : Text} (h : render config fragments = front ++ '<' :: rest) :
    (Even (front.count '<') ∧ Opens config ('<' :: rest)) ∨
      (Odd (front.count '<') ∧ Closes config ('<' :: rest)) := by
  obtain ⟨before, fragment, behind, passed, left, -, hfragment, rfl, rfl⟩ :=
    Text.exists_of_flatMap_eq h
  have hbefore : Even ((before.flatMap (renderFragment config)).count '<') :=
    ⟨_, (count_render hconfig (by decide) (by decide) before).trans (Nat.two_mul _)⟩
  rw [List.count_append, ← List.cons_append]
  rcases bracket_of_renderFragment hconfig hfragment with
    ⟨rfl, category, className, hclass, hopen⟩ | ⟨hcount, hclose⟩
  · exact Or.inl ⟨hbefore, category, className, hclass, hopen.trans (List.prefix_append _ _)⟩
  · rw [hcount]
    exact Or.inr ⟨hbefore.add_one, hclose.trans (List.prefix_append _ _)⟩

/-- An ampersand of the markup begins an entity. -/
theorem entity_of_render (hconfig : config.Inert) {fragments : List Fragment}
    {front rest : Text} (h : render config fragments = front ++ '&' :: rest) :
    ∃ c ∈ reserved, escapeChar c <+: '&' :: rest := by
  obtain ⟨before, fragment, behind, passed, left, -, hfragment, rfl, rfl⟩ :=
    Text.exists_of_flatMap_eq h
  have hreserved : '&' ∈ reserved := by decide
  obtain ⟨helement, hlead⟩ := hconfig '&' hreserved
  rw [← List.cons_append]
  rcases renderFragment_cases config fragment with
    ⟨-, heq⟩ | ⟨-, className, hclass, heq⟩
  · rw [heq] at hfragment
    obtain ⟨c, hc, hentity⟩ := entity_prefix_of_escape hfragment
    exact ⟨c, hc, hentity.trans (List.prefix_append _ _)⟩
  · have hopen := not_mem_tag (by decide) (by decide)
      (not_mem_openInside hclass hreserved helement hlead)
    have hclose : '&' ∉ tag (closeInside config) :=
      not_mem_tag (by decide) (by decide) (not_mem_closeInside hreserved helement)
    rw [heq] at hfragment
    obtain ⟨inside, rfl, hbody⟩ := Text.exists_of_append_eq hopen hfragment
    rcases Text.append_eq_append_cons hbody with ⟨more, hescape, rfl⟩ | ⟨passed, -, htag⟩
    · obtain ⟨c, hc, hentity⟩ := entity_prefix_of_escape hescape
      refine ⟨c, hc, hentity.trans ?_⟩
      rw [List.cons_append, List.append_assoc, ← List.cons_append]
      exact List.prefix_append _ _
    · exact absurd (htag ▸ List.mem_append_right passed List.mem_cons_self) hclose

end Markup

open Markup

/-- No source text can add markup. There are two brackets of either kind for each classified
fragment; a tag opens exactly where an even number of tags is in front of it and closes exactly
where an odd number is, so tags open and close in turn from the first to the last; and every
ampersand begins an entity. -/
theorem highlight_tags_alternate {config : Config} (hconfig : config.Inert) (text : Text) :
    (∀ c ∈ ['<', '>'], (highlight config text).count c =
        2 * (classify config.scheme text).fragments.countP (!·.isPlain)) ∧
      (∀ front rest, highlight config text = front ++ '<' :: rest →
        (Opens config ('<' :: rest) ↔ Even (front.count '<')) ∧
          (Closes config ('<' :: rest) ↔ Odd (front.count '<'))) ∧
      ∀ front rest, highlight config text = front ++ '&' :: rest →
        ∃ entity ∈ ["&amp;".toList, "&lt;".toList, "&gt;".toList], entity <+: '&' :: rest := by
  refine ⟨?_, ?_, ?_⟩
  · intro c hc
    rcases List.mem_pair.mp hc with rfl | rfl
    · exact count_render hconfig (by decide) (by decide) _
    · exact count_render hconfig (by decide) (by decide) _
  · intro front rest h
    rcases bracket_of_render hconfig h with ⟨heven, hopens⟩ | ⟨hodd, hcloses⟩
    · have hcloses := not_closes_of_opens hconfig hopens
      exact ⟨iff_of_true hopens heven, iff_of_false hcloses (Nat.not_odd_iff_even.mpr heven)⟩
    · have hopens : ¬ Opens config ('<' :: rest) := fun h => not_closes_of_opens hconfig h hcloses
      exact ⟨iff_of_false hopens (Nat.not_even_iff_odd.mpr hodd), iff_of_true hcloses hodd⟩
  · intro front rest h
    obtain ⟨c, hc, hentity⟩ := entity_of_render hconfig h
    exact ⟨escapeChar c, List.mem_map_of_mem hc, hentity⟩

/-- A string that holds a tag and an entity, in front of a comment that holds a closing tag. -/
theorem highlight_tags_alternate_hostile :
    Config.standard.Inert ∧
      (highlight .standard "\"<b>&lt;\" // </span>".toList).count '<' = 4 ∧
      ∀ front rest, highlight .standard "\"<b>&lt;\" // </span>".toList = front ++ '<' :: rest →
        Even (front.count '<') → Opens .standard ('<' :: rest) := by
  have hclassified : (classify .standard "\"<b>&lt;\" // </span>".toList).fragments.countP
      (!·.isPlain) = 2 := by
    decide +kernel
  obtain ⟨hcount, htags, -⟩ :=
    highlight_tags_alternate Config.inert_standard "\"<b>&lt;\" // </span>".toList
  refine ⟨Config.inert_standard, ?_, fun front rest h heven => (htags front rest h).1.mpr heven⟩
  exact (hcount '<' (by decide)).trans (congrArg (2 * ·) hclassified)

end CodeTint
