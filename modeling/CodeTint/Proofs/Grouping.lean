import CodeTint.Proofs.Partition
import CodeTint.Proofs.Splitting
import Mathlib.Data.List.SplitBy

/-!
# Fragments are runs of tokens

The tokens of a text fall into runs: longest stretches of plain tokens, and classified tokens one
by one. Joining plain neighbours makes one fragment of every run, from its first token to its last
one. The markup does not show the joining, since it is that of the tokens written one by one.
-/

namespace CodeTint

open Text

/-- The scheme shows the token as plain text. -/
def Scheme.showsPlain (scheme : Scheme) (token : Token) : Bool :=
  (scheme.categorize token.kind).isPlain

/-- The longest stretches of plain tokens, and the classified tokens one by one. -/
def Scheme.runs (scheme : Scheme) (tokens : List Token) : List (List Token) :=
  tokens.splitBy fun first last => scheme.showsPlain first && scheme.showsPlain last

namespace Scheme

/-- Neighbours in a run are both plain, so two tokens make all of the run plain. -/
theorem showsPlain_of_isChain (scheme : Scheme) {first second : Token} {rest : List Token}
    (h : (first :: second :: rest).IsChain fun first last =>
      (scheme.showsPlain first && scheme.showsPlain last) = true) :
    ∀ token ∈ first :: second :: rest, scheme.showsPlain token = true := by
  induction rest generalizing first second with
  | nil =>
    rw [List.isChain_cons_cons, Bool.and_eq_true] at h
    intro token htoken
    simp only [List.mem_cons, List.not_mem_nil, or_false] at htoken
    rcases htoken with rfl | rfl
    · exact h.1.1
    · exact h.1.2
  | cons third rest ih =>
    rw [List.isChain_cons_cons, Bool.and_eq_true] at h
    intro token htoken
    rcases List.mem_cons.mp htoken with rfl | htoken
    · exact h.1.1
    · exact ih h.2 token htoken

/-- A run is a single classified token, or all of its tokens are plain. -/
theorem single_or_plain_of_mem_runs {scheme : Scheme} {tokens run : List Token}
    (h : run ∈ scheme.runs tokens) :
    (∃ token, run = [token] ∧ scheme.showsPlain token = false) ∨
      ∀ token ∈ run, scheme.showsPlain token = true := by
  rcases run with _ | ⟨first, _ | ⟨second, rest⟩⟩
  · exact absurd rfl (List.ne_nil_of_mem_splitBy h)
  · cases hplain : scheme.showsPlain first with
    | false => exact Or.inl ⟨first, rfl, hplain⟩
    | true =>
      refine Or.inr fun token htoken => ?_
      rw [List.mem_singleton.mp htoken, hplain]
  · exact Or.inr (showsPlain_of_isChain scheme (List.isChain_of_mem_splitBy h))

/-- Two runs of plain tokens are never neighbours. -/
theorem isChain_runs (scheme : Scheme) (tokens : List Token) :
    (scheme.runs tokens).IsChain fun first last =>
      ¬ ((∀ token ∈ first, scheme.showsPlain token = true) ∧
        ∀ token ∈ last, scheme.showsPlain token = true) := by
  refine (List.isChain_getLast_head_splitBy _ tokens).imp ?_
  rintro first last ⟨hfirst, hlast, hborder⟩ ⟨hplain, hplain'⟩
  rw [hplain _ (List.getLast_mem hfirst), hplain' _ (List.head_mem hlast)] at hborder
  cases hborder

end Scheme

namespace Fragment

/-- A fragment shows a run of tokens: it has the category of each of them, goes from the first one
to the last one, and holds their text. -/
structure Shows (scheme : Scheme) (run : List Token) (fragment : Fragment) : Prop where
  /-- All tokens of the run are shown in the category of the fragment. -/
  category : ∀ token ∈ run, scheme.categorize token.kind = fragment.category
  /-- The fragment starts with the first token. -/
  start : ∃ first ∈ run.head?, fragment.span.start = first.span.start
  /-- The fragment ends with the last token. -/
  stop : ∃ last ∈ run.getLast?, fragment.span.stop = last.span.stop
  /-- The fragment holds the text of the run. -/
  text : fragment.text = run.flatMap Token.text

variable {scheme : Scheme}

/-- A token by itself is shown by its own fragment. -/
theorem shows_single (token : Token) : Shows scheme [token] (ofToken scheme token) where
  category other hother := by rw [List.mem_singleton.mp hother, ofToken]
  start := ⟨token, rfl, rfl⟩
  stop := ⟨token, rfl, rfl⟩
  text := (List.append_nil token.text).symm

/-- A plain token in front of a run of plain tokens is shown by its fragment joined to theirs. -/
theorem Shows.join {token second : Token} {rest : List Token} {fragment : Fragment}
    (h : Shows scheme (second :: rest) fragment)
    (hcategory : scheme.categorize token.kind = scheme.categorize second.kind) :
    Shows scheme (token :: second :: rest) ((ofToken scheme token).join fragment) where
  category other hother := by
    rcases List.mem_cons.mp hother with rfl | hother
    · rfl
    · rw [h.category other hother, ← h.category second List.mem_cons_self, ← hcategory]
      rfl
  start := ⟨token, rfl, rfl⟩
  stop := by
    obtain ⟨last, hlast, hstop⟩ := h.stop
    exact ⟨last, by rwa [List.getLast?_cons_cons], hstop⟩
  text := by
    rw [List.flatMap_cons, ← h.text]
    rfl

/-- Joining the tokens of one run makes one fragment of them when the fragments behind it start
apart from it. -/
theorem exists_shows_run {run : List Token} (hne : run ≠ [])
    (hchain : run.IsChain fun first last =>
      (scheme.showsPlain first && scheme.showsPlain last) = true)
    {behind : List Fragment}
    (hapart : ∀ last ∈ run.getLast?, ∀ next ∈ behind.head?, (ofToken scheme last).Apart next) :
    ∃ fragment, Shows scheme run fragment ∧
      (run.map (ofToken scheme)).foldr mergeOnto behind = fragment :: behind := by
  induction run with
  | nil => exact absurd rfl hne
  | cons token run ih =>
    cases run with
    | nil =>
      refine ⟨ofToken scheme token, shows_single token, ?_⟩
      rcases mergeOnto_eq_or (ofToken scheme token) behind with
        ⟨heq, -⟩ | ⟨next, rest, rfl, hplain, hnext, -⟩
      · exact heq
      · exact absurd ⟨hplain, hnext⟩ (hapart token rfl next rfl)
    | cons second rest =>
      have hplain := Scheme.showsPlain_of_isChain scheme hchain
      have htoken := hplain token List.mem_cons_self
      have hsecond := hplain second (List.mem_cons_of_mem _ List.mem_cons_self)
      obtain ⟨fragment, hshows, hfold⟩ := ih (List.cons_ne_nil _ _)
        (List.isChain_cons_cons.mp hchain).2 (by rwa [List.getLast?_cons_cons] at hapart)
      refine ⟨(ofToken scheme token).join fragment, hshows.join ?_, ?_⟩
      · rw [Scheme.showsPlain, Category.isPlain, decide_eq_true_eq] at htoken hsecond
        rw [htoken, hsecond]
      · have hfragment : fragment.isPlain = true := by
          rw [isPlain, ← hshows.category second List.mem_cons_self]
          exact hsecond
        have hboth : ((ofToken scheme token).isPlain && fragment.isPlain) = true := by
          rw [hfragment, Bool.and_true]
          exact htoken
        rw [List.map_cons, List.foldr_cons, hfold, mergeOnto, if_pos hboth]

/-- Two tokens that are not both plain are apart, and so are the fragments that show them. -/
theorem Shows.apart {last second : Token} {run : List Token} {fragment : Fragment}
    (h : Shows scheme run fragment) (hsecond : second ∈ run)
    (hborder : (scheme.showsPlain last && scheme.showsPlain second) = false) :
    (ofToken scheme last).Apart fragment := by
  rintro ⟨hlast, hfragment⟩
  have hplain : scheme.showsPlain second = true := by
    rw [Scheme.showsPlain, h.category second hsecond]
    exact hfragment
  have hlast' : scheme.showsPlain last = true := hlast
  rw [hlast', hplain] at hborder
  cases hborder

/-- Joining the tokens of nonempty runs that are apart makes one fragment of every run. -/
theorem forall₂_shows {runs : List (List Token)} (hnil : [] ∉ runs)
    (hchain : ∀ run ∈ runs, run.IsChain fun first last =>
      (scheme.showsPlain first && scheme.showsPlain last) = true)
    (hborder : runs.IsChain fun first last => ∃ hfirst hlast,
      (scheme.showsPlain (first.getLast hfirst) && scheme.showsPlain (last.head hlast)) = false) :
    List.Forall₂ (Shows scheme) runs (ofTokens scheme runs.flatten) := by
  induction runs with
  | nil => exact List.Forall₂.nil
  | cons run runs ih =>
    rw [List.mem_cons, not_or] at hnil
    rw [List.isChain_cons] at hborder
    have hbehind := ih hnil.2 (fun other hother => hchain other (List.mem_cons_of_mem _ hother))
      hborder.2
    have hapart : ∀ last ∈ run.getLast?, ∀ next ∈ (ofTokens scheme runs.flatten).head?,
        (ofToken scheme last).Apart next := by
      intro last hlast next hnext
      cases runs with
      | nil => cases hnext
      | cons second rest =>
        obtain ⟨fragment, fragments, hshows, -, heq⟩ := List.forall₂_cons_left_iff.mp hbehind
        rw [heq, List.head?_cons, Option.mem_some_iff] at hnext
        obtain ⟨hrun, hsecond, hplain⟩ := hborder.1 second rfl
        obtain ⟨_, rfl⟩ := List.mem_getLast?_eq_getLast hlast
        exact hnext ▸ hshows.apart (List.head_mem hsecond) hplain
    obtain ⟨fragment, hshows, hfold⟩ :=
      exists_shows_run (Ne.symm hnil.1) (hchain run List.mem_cons_self) hapart
    rw [ofTokens, List.flatten_cons, List.map_append, mergePlain, List.foldr_append, ← mergePlain,
      ← ofTokens, hfold]
    exact List.Forall₂.cons hshows hbehind

/-- Joining plain neighbours makes one fragment of every run of the tokens. -/
theorem forall₂_shows_runs (scheme : Scheme) (tokens : List Token) :
    List.Forall₂ (Shows scheme) (scheme.runs tokens) (ofTokens scheme tokens) := by
  have hborder := List.isChain_getLast_head_splitBy
    (fun first last => scheme.showsPlain first && scheme.showsPlain last) tokens
  have hruns := forall₂_shows (List.nil_notMem_splitBy _ tokens)
    (fun _ => List.isChain_of_mem_splitBy) hborder
  rwa [List.flatten_splitBy] at hruns

end Fragment

/-- A token of a run holds the slice of the text at its span. -/
theorem Token.text_eq_slice (attributes : Bool) {text : Text} (h : bytes text < UInt32.size)
    {token : Token} (htoken : token ∈ lex attributes text) :
    token.text = text.slice token.span.start.toNat token.span.stop.toNat := by
  have hlaid := laid_scan (Scan.Rule.inForce attributes Scan.Rule.all) .start 0 text
  have hwhole : ((lex attributes text).map piece).flatMap Prod.snd = text := by
    rw [List.flatMap_map]
    exact flatMap_text_lex attributes text
  exact Span.Laid.eq_slice [] hlaid hwhole h (List.mem_map_of_mem htoken)

/-- The fragments of a text show the runs of its tokens one by one: the longest stretches of plain
tokens, and every classified token alone. The markup is that of the slices of the text at the
tokens, each in the category of its token. -/
theorem fragments_show_runs (config : Config) {text : Text} (hsize : bytes text < UInt32.size) :
    List.Forall₂ (Fragment.Shows config.scheme)
        (config.scheme.runs (config.scheme.tokens text))
        (classify config.scheme text).fragments ∧
      (config.scheme.runs (config.scheme.tokens text)).flatten = config.scheme.tokens text ∧
      (∀ run ∈ config.scheme.runs (config.scheme.tokens text),
        (∃ token, run = [token] ∧ config.scheme.showsPlain token = false) ∨
          ∀ token ∈ run, config.scheme.showsPlain token = true) ∧
      ((config.scheme.runs (config.scheme.tokens text)).IsChain fun first last =>
        ¬ ((∀ token ∈ first, config.scheme.showsPlain token = true) ∧
          ∀ token ∈ last, config.scheme.showsPlain token = true)) ∧
      highlight config text = (config.scheme.tokens text).flatMap fun token =>
        Markup.renderFragment config ⟨config.scheme.categorize token.kind, token.span,
          text.slice token.span.start.toNat token.span.stop.toNat⟩ := by
  refine ⟨Fragment.forall₂_shows_runs _ _, List.flatten_splitBy _ _,
    fun run => Scheme.single_or_plain_of_mem_runs, Scheme.isChain_runs _ _, ?_⟩
  calc highlight config text
    _ = (config.scheme.tokens text).flatMap fun token =>
          Markup.renderFragment config (Fragment.ofToken config.scheme token) :=
      Markup.render_ofTokens config config.scheme _
    _ = _ := by
      refine List.flatMap_congr fun token htoken => ?_
      rw [← Token.text_eq_slice _ hsize htoken]
      rfl

/-- Two literals with nothing between them stay apart, and plain tokens in front are joined. -/
theorem fragments_show_runs_literals :
    bytes "x=\"a\"\x27b\x27;".toList < UInt32.size ∧
      (Config.standard.scheme.runs
          (Config.standard.scheme.tokens "x=\"a\"\x27b\x27;".toList)).map (·.map Token.span) =
        [[⟨0, 1⟩, ⟨1, 2⟩], [⟨2, 5⟩], [⟨5, 8⟩], [⟨8, 9⟩]] ∧
      (classify Config.standard.scheme "x=\"a\"\x27b\x27;".toList).fragments.length = 4 ∧
      highlight .standard "x=\"a\"\x27b\x27;".toList =
        ("x=<span class=\"cpp-literal\">\"a\"</span>" ++
          "<span class=\"cpp-literal\">\x27b\x27</span>;").toList := by
  have hsize : bytes "x=\"a\"\x27b\x27;".toList < UInt32.size := by
    decide
  have hruns : (Config.standard.scheme.runs
      (Config.standard.scheme.tokens "x=\"a\"\x27b\x27;".toList)).map (·.map Token.span) =
        [[⟨0, 1⟩, ⟨1, 2⟩], [⟨2, 5⟩], [⟨5, 8⟩], [⟨8, 9⟩]] := by
    decide +kernel
  obtain ⟨hshows, -, -, -, hmarkup⟩ := fragments_show_runs .standard hsize
  refine ⟨hsize, hruns, ?_, ?_⟩
  · have hlength := congrArg List.length hruns
    rw [List.length_map, hshows.length_eq] at hlength
    exact hlength
  · rw [hmarkup]
    decide +kernel

end CodeTint
