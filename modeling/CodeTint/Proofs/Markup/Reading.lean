import CodeTint.Proofs.Markup.Tags
import CodeTint.Proofs.Partition

/-!
# Reading the markup back

Leaving out the tags and replacing the entities gives the source text back when no closing bracket
comes in through the settings. Under any settings at all the markup still determines the fragments
it was written from: a bracket or the end tells where plain text stops, the quote in the opening tag
where the class name stops, and the bracket of the closing tag where the classified text stops.
-/

namespace CodeTint

namespace Markup

/-- A text without its tags, from the inside of a tag on or from the outside. -/
def stripFrom : Bool → Text → Text
  | _, [] => []
  | true, c :: rest => stripFrom (c ≠ '>') rest
  | false, c :: rest => if c = '<' then stripFrom true rest else c :: stripFrom false rest

/-- A text without everything from each opening bracket up to the next closing one. -/
def stripTags (text : Text) : Text :=
  stripFrom false text

/-- The text that some markup shows: without tags, and with entities replaced. -/
def source (markup : Text) : Text :=
  unescape (stripTags markup)

/-- Inside a tag everything up to the closing bracket is left out. -/
theorem stripFrom_true {inside : Text} (h : '>' ∉ inside) (rest : Text) :
    stripFrom true (inside ++ '>' :: rest) = stripTags rest := by
  induction inside with
  | nil => rfl
  | cons c inside ih =>
    rw [List.mem_cons, not_or] at h
    have hc : decide (c ≠ '>') = true := decide_eq_true (Ne.symm h.1)
    rw [List.cons_append, stripFrom, hc, ih h.2]

/-- A tag is left out. -/
theorem stripTags_tag {inside : Text} (h : '>' ∉ inside) (rest : Text) :
    stripTags (tag inside ++ rest) = stripTags rest := by
  rw [tag, List.cons_append, List.append_assoc, stripTags, stripFrom, if_pos rfl]
  exact stripFrom_true h rest

/-- Outside of tags everything up to an opening bracket stays. -/
theorem stripTags_append {front : Text} (h : '<' ∉ front) (rest : Text) :
    stripTags (front ++ rest) = front ++ stripTags rest := by
  induction front with
  | nil => rfl
  | cons c front ih =>
    rw [List.mem_cons, not_or] at h
    rw [List.cons_append, stripTags, stripFrom, if_neg (Ne.symm h.1), ← stripTags, ih h.2,
      List.cons_append]

variable {config : Config}

/-- Of a written fragment its escaped text stays. -/
theorem stripTags_renderFragment (helement : '>' ∉ config.element.toList)
    (hlead : '>' ∉ config.classPrefix.toList) (fragment : Fragment) (rest : Text) :
    stripTags (renderFragment config fragment ++ rest) =
      escape fragment.text ++ stripTags rest := by
  have hreserved : '>' ∈ reserved := by decide
  have hescape : '<' ∉ escape fragment.text := not_mem_escape (by decide) (by decide) _
  rcases renderFragment_cases config fragment with ⟨-, heq⟩ | ⟨-, className, hclass, heq⟩
  · rw [heq, stripTags_append hescape]
  · rw [heq, List.append_assoc, List.append_assoc,
      stripTags_tag (not_mem_openInside hclass hreserved helement hlead),
      stripTags_append hescape, stripTags_tag (not_mem_closeInside hreserved helement)]

/-- Of the markup the escaped text of all fragments stays. -/
theorem stripTags_render (helement : '>' ∉ config.element.toList)
    (hlead : '>' ∉ config.classPrefix.toList) (fragments : List Fragment) :
    stripTags (render config fragments) = escape (Fragment.wholeText fragments) := by
  induction fragments with
  | nil => rfl
  | cons fragment fragments ih =>
    rw [render, List.flatMap_cons, stripTags_renderFragment helement hlead, ← render, ih,
      ← escape_append]
    rfl

end Markup

namespace Category

/-- A class belongs to one category. -/
theorem className?_injective : Function.Injective className? := by
  intro first last
  cases first <;> cases last <;> decide

end Category

namespace Fragment

/-- Fragments as scanning leaves them: no plain one is empty, and no two plain ones are
neighbours. -/
structure Normal (fragments : List Fragment) : Prop where
  /-- No plain fragment is empty. -/
  nonempty : ∀ fragment ∈ fragments, fragment.isPlain = true → fragment.text ≠ []
  /-- No two plain fragments are neighbours. -/
  apart : fragments.IsChain Apart

/-- How a fragment is shown, wherever it stands. -/
def shown (fragment : Fragment) : Category × Text :=
  (fragment.category, fragment.text)

/-- Without the first of them fragments stay normal. -/
theorem Normal.tail {fragment : Fragment} {fragments : List Fragment}
    (h : Normal (fragment :: fragments)) : Normal fragments :=
  ⟨fun other hother => h.nonempty other (List.mem_cons_of_mem fragment hother), h.apart.tail⟩

/-- The fragments of every text are normal. -/
theorem normal_classify (scheme : Scheme) (text : Text) :
    Normal (classify scheme text).fragments where
  nonempty _ hfragment _ :=
    (laid_classify scheme text).ne_nil (List.mem_map_of_mem hfragment)
  apart := isChain_mergePlain _

end Fragment

namespace Markup

open Fragment

/-- What is written of a fragment that is not plain begins with an opening bracket. -/
theorem exists_bracket (config : Config) {fragment : Fragment} (h : ¬ fragment.isPlain = true) :
    ∃ rest, renderFragment config fragment = '<' :: rest := by
  obtain ⟨-, className, -, heq⟩ :=
    (renderFragment_cases config fragment).resolve_left fun hcase => h hcase.1
  exact ⟨_, heq⟩

/-- What is written of a plain fragment that is not empty begins with another character. -/
theorem not_bracket (config : Config) {fragment : Fragment} (hplain : fragment.isPlain = true)
    (htext : fragment.text ≠ []) {rest other : Text} :
    renderFragment config fragment ++ rest ≠ '<' :: other := by
  have hescape : '<' ∉ escape fragment.text := not_mem_escape (by decide) (by decide) _
  rw [renderFragment_of_isPlain config hplain]
  cases hbody : escape fragment.text with
  | nil => exact absurd (escape_eq_nil_iff.mp hbody) htext
  | cons c body =>
    rw [hbody, List.mem_cons, not_or] at hescape
    exact fun h => hescape.1 (List.cons.inj h).1.symm

/-- Behind a plain fragment the markup ends or goes on with an opening bracket. -/
theorem head_render_of_normal (config : Config) {fragment : Fragment} {rest : List Fragment}
    (h : Normal (fragment :: rest)) (hplain : fragment.isPlain = true) :
    ∀ c ∈ (render config rest).head?, c = '<' := by
  cases rest with
  | nil => exact fun c hc => nomatch hc
  | cons next rest =>
    have hnext : ¬ next.isPlain = true := fun hnext =>
      (List.isChain_cons_cons.mp h.apart).1 ⟨hplain, hnext⟩
    obtain ⟨other, heq⟩ := exists_bracket config hnext
    rw [render, List.flatMap_cons, heq]
    exact fun c hc => (Option.mem_some_iff.mp hc).symm

/-- Two classified fragments with which the same markup begins are shown alike and have the same
markup behind them, whatever the settings bring into their tags. -/
theorem shown_eq_of_classified (config : Config) {first last : Fragment}
    (hfirst : ¬ first.isPlain = true) (hlast : ¬ last.isPlain = true) {rest other : Text}
    (h : renderFragment config first ++ rest = renderFragment config last ++ other) :
    first.shown = last.shown ∧ rest = other := by
  obtain ⟨-, className, hclass, heq⟩ :=
    (renderFragment_cases config first).resolve_left fun hcase => hfirst hcase.1
  obtain ⟨-, otherName, hother, heq'⟩ :=
    (renderFragment_cases config last).resolve_left fun hcase => hlast hcase.1
  have hquote : '"' ∈ '"' :: reserved := List.mem_cons_self
  rw [heq, heq'] at h
  simp only [tag, openInside, List.cons_append, List.append_assoc, List.nil_append,
    List.cons.injEq, true_and, List.append_cancel_left_eq] at h
  -- the quote ends the class name, the next bracket ends the text
  obtain ⟨hname, hbehind⟩ :=
    Text.eq_of_append_cons_eq (not_mem_className hclass hquote) (not_mem_className hother hquote) h
  obtain ⟨hescape, hclose⟩ := Text.eq_of_append_cons_eq
    (not_mem_escape (by decide) (by decide) first.text)
    (not_mem_escape (by decide) (by decide) last.text) (List.cons.inj hbehind).2
  have hcategory : first.category = last.category := by
    apply Category.className?_injective
    rw [hclass, hother, String.toList_inj.mp hname]
  refine ⟨Prod.ext hcategory (escape_injective hescape), ?_⟩
  exact (List.cons.inj (List.append_cancel_left hclose)).2

/-- Two plain fragments with which the same markup begins, each in front of a bracket or the end,
are shown alike and have the same markup behind them. -/
theorem shown_eq_of_plain (config : Config) {first last : Fragment}
    (hfirst : first.isPlain = true) (hlast : last.isPlain = true) {rest other : Text}
    (hrest : ∀ c ∈ rest.head?, c = '<') (hother : ∀ c ∈ other.head?, c = '<')
    (h : renderFragment config first ++ rest = renderFragment config last ++ other) :
    first.shown = last.shown ∧ rest = other := by
  rw [renderFragment_of_isPlain config hfirst, renderFragment_of_isPlain config hlast] at h
  obtain ⟨hescape, hbehind⟩ := Text.eq_of_append_eq
    (not_mem_escape (by decide) (by decide) first.text)
    (not_mem_escape (by decide) (by decide) last.text) hrest hother h
  have hcategory : first.category = last.category :=
    (of_decide_eq_true hfirst).trans (of_decide_eq_true hlast).symm
  exact ⟨Prod.ext hcategory (escape_injective hescape), hbehind⟩

/-- What is written of a fragment that is not plain or not empty is not empty. -/
theorem render_cons_ne_nil (config : Config) {fragment : Fragment} {rest : List Fragment}
    (h : Normal (fragment :: rest)) : render config (fragment :: rest) ≠ [] := by
  rw [render, List.flatMap_cons]
  refine List.append_ne_nil_of_left_ne_nil ?_ _
  by_cases hplain : fragment.isPlain = true
  · rw [renderFragment_of_isPlain config hplain, ne_eq, escape_eq_nil_iff]
    exact h.nonempty fragment List.mem_cons_self hplain
  · obtain ⟨other, heq⟩ := exists_bracket config hplain
    rw [heq]
    exact List.cons_ne_nil _ _

/-- Normal lists that are written alike begin with fragments that are shown alike and go on with
what is written alike. -/
theorem shown_eq_of_render_cons_eq (config : Config) {fragment other : Fragment}
    {first last : List Fragment} (hfirst : Normal (fragment :: first))
    (hlast : Normal (other :: last))
    (h : render config (fragment :: first) = render config (other :: last)) :
    fragment.shown = other.shown ∧ render config first = render config last := by
  rw [render, render, List.flatMap_cons, List.flatMap_cons] at h
  by_cases hplain : fragment.isPlain = true <;> by_cases hother : other.isPlain = true
  · exact shown_eq_of_plain config hplain hother (head_render_of_normal config hfirst hplain)
      (head_render_of_normal config hlast hother) h
  · obtain ⟨inside, heq⟩ := exists_bracket config hother
    rw [heq, List.cons_append] at h
    exact absurd h (not_bracket config hplain (hfirst.nonempty _ List.mem_cons_self hplain))
  · obtain ⟨inside, heq⟩ := exists_bracket config hplain
    rw [heq, List.cons_append] at h
    exact absurd h.symm (not_bracket config hother (hlast.nonempty _ List.mem_cons_self hother))
  · exact shown_eq_of_classified config hplain hother h

end Markup

open Markup Fragment

/-- Without tags and with entities replaced, the markup of a text is the text, as long as the
settings bring in no closing bracket. -/
theorem source_highlight {config : Config} (helement : '>' ∉ config.element.toList)
    (hlead : '>' ∉ config.classPrefix.toList) (text : Text) :
    source (highlight config text) = text := by
  rw [source, highlight, stripTags_render helement hlead, unescape_escape, wholeText_classify]

/-- Settings that bring in opening brackets and ampersands, and a text that looks escaped. -/
theorem source_highlight_entities :
    '>' ∉ "b<&lt;".toList ∧ '>' ∉ "\"<i &amp;".toList ∧
      source (highlight ⟨.split, "\"<i &amp;", "b<&lt;"⟩ "a<b&amp;&gt; \"&lt;\">1".toList) =
        "a<b&amp;&gt; \"&lt;\">1".toList :=
  ⟨by decide, by decide, source_highlight (by decide) (by decide) _⟩

/-- Under any settings, normal lists of fragments that are written alike are shown alike, fragment
by fragment. -/
theorem shown_eq_of_render_eq (config : Config) {first last : List Fragment}
    (hfirst : Normal first) (hlast : Normal last)
    (h : render config first = render config last) : first.map shown = last.map shown := by
  induction first generalizing last with
  | nil =>
    cases last with
    | nil => rfl
    | cons other last => exact absurd h.symm (render_cons_ne_nil config hlast)
  | cons fragment first ih =>
    cases last with
    | nil => exact absurd h (render_cons_ne_nil config hfirst)
    | cons other last =>
      obtain ⟨hshown, hrest⟩ := shown_eq_of_render_cons_eq config hfirst hlast h
      rw [List.map_cons, List.map_cons, hshown, ih hfirst.tail hlast.tail hrest]

/-- The fragments of a text and the same fragments at another place, under settings with brackets
and quotes. -/
theorem shown_eq_of_render_eq_moved :
    Normal (classify .literal "a\"<b\"".toList).fragments ∧
      Normal [⟨.plain, ⟨7, 8⟩, "a".toList⟩, ⟨.literal, ⟨8, 12⟩, "\"<b\"".toList⟩] ∧
      render ⟨.literal, "\">", "</b>"⟩ (classify .literal "a\"<b\"".toList).fragments =
        render ⟨.literal, "\">", "</b>"⟩
          [⟨.plain, ⟨7, 8⟩, "a".toList⟩, ⟨.literal, ⟨8, 12⟩, "\"<b\"".toList⟩] ∧
      (classify .literal "a\"<b\"".toList).fragments.map shown =
        [(.plain, "a".toList), (.literal, "\"<b\"".toList)] := by
  have hfirst := normal_classify .literal "a\"<b\"".toList
  have hlast : Normal
      [⟨.plain, ⟨7, 8⟩, "a".toList⟩, ⟨.literal, ⟨8, 12⟩, "\"<b\"".toList⟩] := by
    constructor
    · decide
    · simp [Apart, isPlain, Category.isPlain]
  have hrender : render ⟨.literal, "\">", "</b>"⟩ (classify .literal "a\"<b\"".toList).fragments =
      render ⟨.literal, "\">", "</b>"⟩
        [⟨.plain, ⟨7, 8⟩, "a".toList⟩, ⟨.literal, ⟨8, 12⟩, "\"<b\"".toList⟩] := by
    decide +kernel
  exact ⟨hfirst, hlast, hrender, shown_eq_of_render_eq _ hfirst hlast hrender⟩

end CodeTint
