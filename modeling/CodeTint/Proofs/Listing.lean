import CodeTint.Proofs.ExitCodes
import CodeTint.Proofs.Json.Records
import CodeTint.Proofs.Partition
import CodeTint.Proofs.Source.LineIndex

/-!
# Listings are read back

A listing has one line for each fragment, and no text of a fragment can break a line or add a
column. Lines in columns name the category and the range of bytes, so together with the source they
give the fragments back; lines as JSON hold all of a fragment themselves.
-/

namespace CodeTint

namespace Category

/-- The category with a name. -/
def ofName? (name : Text) : Option Category :=
  all.find? fun category => category.name.toList == name

/-- Each name leads back to its category. -/
theorem ofName?_name (category : Category) : ofName? category.name.toList = some category := by
  cases category <;> decide

/-- No name of a category has a newline or a tab. -/
theorem not_mem_name (category : Category) :
    '\n' ∉ category.name.toList ∧ '\t' ∉ category.name.toList := by
  cases category <;> decide

end Category

/-- The number that a text is. -/
def Text.number? (text : Text) : Option Nat :=
  match Json.readScalar? text with
  | some (.number value, []) => some value
  | _ => none

namespace Span

/-- The bytes of a span as a range. -/
def range (span : Span) : Text :=
  Text.digits span.start.toNat ++ "..".toList ++ Text.digits span.stop.toNat

/-- The span between two offsets, none when they have more than 32 bits. -/
def ofOffsets? (start stop : Nat) : Option Span :=
  if start < UInt32.size ∧ stop < UInt32.size then some (.ofRange start stop) else none

/-- The span of a range. -/
def ofRange? (range : Text) : Option Span :=
  match range.splitOn '.' with
  | [first, [], last] => do
    let start ← Text.number? first
    let stop ← Text.number? last
    ofOffsets? start stop
  | _ => none

/-- The ends of a span have at most 64 bits. -/
theorem fits_offset (offset : UInt32) : (Json.Scalar.number offset.toNat).Fits :=
  Nat.lt_trans offset.toNat_lt (by decide)

/-- The digits of an end of a span are read as that end. -/
theorem number?_digits (offset : UInt32) :
    Text.number? (Text.digits offset.toNat) = some offset.toNat := by
  have hend : Json.EndsNumber [] := fun c hc => nomatch hc
  have hread := Json.readScalar?_write (fits_offset offset) hend
  rw [List.append_nil, Json.Scalar.write] at hread
  rw [Text.number?, hread]

/-- A span is the one between its own ends. -/
theorem ofOffsets?_toNat (span : Span) :
    ofOffsets? span.start.toNat span.stop.toNat = some span := by
  rw [ofOffsets?, if_pos ⟨span.start.toNat_lt, span.stop.toNat_lt⟩, ofRange, UInt32.ofNat_toNat,
    UInt32.ofNat_toNat]

/-- A range holds digits and points only. -/
theorem not_mem_range {c : Char} (hc : c.isDigit = false) (hpoint : c ≠ '.') (span : Span) :
    c ∉ span.range := by
  have hpoints : c ∉ "..".toList := by
    simpa using hpoint
  simp only [range, List.mem_append, not_or]
  exact ⟨⟨Text.not_mem_digits hc _, hpoints⟩, Text.not_mem_digits hc _⟩

/-- A span is read back from its range. -/
theorem ofRange?_range (span : Span) : ofRange? span.range = some span := by
  have hpieces : ∀ piece ∈ [Text.digits span.start.toNat, [], Text.digits span.stop.toNat],
      '.' ∉ piece := by
    simp only [List.forall_mem_cons, List.not_mem_nil, not_false_eq_true, false_imp_iff,
      implies_true, and_true, true_and]
    exact ⟨Text.not_mem_digits rfl _, Text.not_mem_digits rfl _⟩
  have hrange : span.range =
      ['.'].intercalate [Text.digits span.start.toNat, [], Text.digits span.stop.toNat] := by
    simp [range, List.intercalate]
  rw [ofRange?, hrange, List.splitOn_intercalate '.' hpieces (List.cons_ne_nil _ _)]
  dsimp only
  rw [number?_digits, number?_digits]
  exact ofOffsets?_toNat span

end Span

namespace Fragment

/-- The fragment of a source that a line in columns shows: its category by name, its bytes as a
range, and its text as the slice of the source there. -/
def ofColumns? (source line : Text) : Option Fragment :=
  match line.splitOn '\t' with
  | [name, range, _] => do
    let category ← Category.ofName? name
    let span ← Span.ofRange? range
    let text ← source.slice? span.start.toNat span.stop.toNat
    return ⟨category, span, text⟩
  | _ => none

/-- The fragment that a line as JSON holds. -/
def ofJson? (line : Text) : Option Fragment := do
  let entries ← Json.readRecord? line
  let name ← entries.lookup "category".toList >>= Json.Scalar.string?
  let category ← Category.ofName? name
  let start ← entries.lookup "start".toList >>= Json.Scalar.number?
  let stop ← entries.lookup "end".toList >>= Json.Scalar.number?
  let span ← Span.ofOffsets? start stop
  let text ← entries.lookup "text".toList >>= Json.Scalar.string?
  return ⟨category, span, text⟩

/-- A fragment of a text is the slice at its span, which starts and stops between characters. -/
theorem slice?_eq (scheme : Scheme) {text : Text} (h : Text.bytes text < UInt32.size)
    {fragment : Fragment} (hmem : fragment ∈ (classify scheme text).fragments) :
    text.slice? fragment.span.start.toNat fragment.span.stop.toNat = some fragment.text := by
  have hwhole : ((classify scheme text).fragments.map piece).flatMap Prod.snd = text := by
    rw [List.flatMap_map]
    exact wholeText_classify scheme text
  obtain ⟨before, rest, hsplit, hspan⟩ := (laid_classify scheme text).exists_split [] hwhole
    (List.mem_map_of_mem hmem)
  obtain ⟨hstart, hstop⟩ := Span.ofRange_exact_of_append hsplit h
  rw [hspan, hstart, hstop, ← hsplit]
  exact Text.slice?_append before fragment.text rest

end Fragment

namespace Command

open Fragment

/-- A line in columns is split by two tabs into the name of the category, the range of the bytes and
the text with its line breaks and tabs shown by letters. -/
structure InColumns (line : Text) (fragment : Fragment) : Prop where
  /-- The columns. -/
  columns : line.splitOn '\t' =
    [fragment.category.name.toList, fragment.span.range, onOneLine fragment.text]
  /-- The tabs between them. -/
  tabs : line.count '\t' = 2

/-- A text on one line has no line break and no tab. -/
theorem not_mem_onOneLine {c : Char} (hc : c ∈ ['\n', '\r', '\t']) (text : Text) :
    c ∉ onOneLine text := by
  have hletter : ∀ letter ∈ ['n', 'r', 't'], c ∉ ['\\', letter] := by
    simp only [List.mem_cons, List.not_mem_nil, or_false] at hc
    rcases hc with rfl | rfl | rfl <;> exact Text.forall_mem_of_all (by decide)
  intro hmem
  obtain ⟨d, -, hd⟩ := List.mem_flatMap.mp hmem
  split at hd
  · exact hletter 'n' (by decide) hd
  · split at hd
    · exact hletter 'r' (by decide) hd
    · split at hd
      · exact hletter 't' (by decide) hd
      · rw [List.mem_singleton.mp hd] at hc
        simp_all

/-- A line in columns is the columns with tabs between them. -/
theorem fragmentLine_eq (fragment : Fragment) : fragmentLine fragment =
    ['\t'].intercalate
      [fragment.category.name.toList, fragment.span.range, onOneLine fragment.text] := by
  simp [fragmentLine, Span.range, List.intercalate]

/-- The line of a fragment shows it in columns. -/
theorem inColumns_fragmentLine (fragment : Fragment) :
    InColumns (fragmentLine fragment) fragment := by
  have hcolumns : ∀ column ∈ [fragment.category.name.toList, fragment.span.range,
      onOneLine fragment.text], '\t' ∉ column := by
    simp only [List.forall_mem_cons, List.not_mem_nil, false_imp_iff, implies_true, and_true]
    exact ⟨fragment.category.not_mem_name.2, Span.not_mem_range rfl (by decide) _,
      not_mem_onOneLine (by decide) _⟩
  have hsplit := List.splitOn_intercalate '\t' hcolumns (List.cons_ne_nil _ _)
  rw [← fragmentLine_eq] at hsplit
  refine ⟨hsplit, ?_⟩
  have hlength := Text.length_splitOn '\t' (fragmentLine fragment)
  rw [hsplit] at hlength
  exact (Nat.succ.inj hlength).symm

/-- A line in columns is one line. -/
theorem newline_not_mem_fragmentLine (fragment : Fragment) : '\n' ∉ fragmentLine fragment := by
  have hname := fragment.category.not_mem_name.1
  have hrange := Span.not_mem_range (c := '\n') rfl (by decide) fragment.span
  have htext := not_mem_onOneLine (c := '\n') (by decide) fragment.text
  simp [fragmentLine_eq, List.intercalate, hname, hrange, htext]

/-- A fragment is read back from the source and its line in columns. -/
theorem ofColumns?_fragmentLine {source : Text} {fragment : Fragment}
    (h : source.slice? fragment.span.start.toNat fragment.span.stop.toNat = some fragment.text) :
    ofColumns? source (fragmentLine fragment) = some fragment := by
  rw [ofColumns?, (inColumns_fragmentLine fragment).columns]
  simp only [Category.ofName?_name, Span.ofRange?_range, h, Option.bind_eq_bind, Option.bind_some]
  rfl

/-- The entries of a fragment as JSON. -/
def fragmentEntries (fragment : Fragment) : List (String × Json.Scalar) :=
  [("category", .string fragment.category.name.toList),
    ("end", .number fragment.span.stop.toNat),
    ("start", .number fragment.span.start.toNat),
    ("text", .string fragment.text)]

/-- A fragment as JSON is one line. -/
theorem newline_not_mem_fragmentJson (fragment : Fragment) : '\n' ∉ fragmentJson fragment := by
  refine Json.newline_not_mem_writeObject fun entry hentry => ?_
  simp only [List.mem_cons, List.not_mem_nil, or_false] at hentry
  rcases hentry with rfl | rfl | rfl | rfl
  · exact Json.newline_not_mem_writeString _
  · exact Text.newline_not_mem_digits _
  · exact Text.newline_not_mem_digits _
  · exact Json.newline_not_mem_writeString _

/-- A fragment is read back from its line as JSON. -/
theorem ofJson?_fragmentJson (fragment : Fragment) :
    ofJson? (fragmentJson fragment) = some fragment := by
  have hfits : ∀ entry ∈ fragmentEntries fragment, entry.2.Fits := by
    simp only [fragmentEntries, List.forall_mem_cons, List.not_mem_nil, false_imp_iff, implies_true,
      and_true]
    exact ⟨trivial, Span.fits_offset _, Span.fits_offset _, trivial⟩
  have hread : Json.readRecord? (fragmentJson fragment) = some
      [("category".toList, .string fragment.category.name.toList),
        ("end".toList, .number fragment.span.stop.toNat),
        ("start".toList, .number fragment.span.start.toNat),
        ("text".toList, .string fragment.text)] :=
    Json.readRecord?_writeObject hfits
  -- the four keys are different, so each look-up finds the entry under its key
  have hfound : ofJson? (fragmentJson fragment) =
      (Category.ofName? fragment.category.name.toList).bind fun category =>
        (Span.ofOffsets? fragment.span.start.toNat fragment.span.stop.toNat).bind fun span =>
          some ⟨category, span, fragment.text⟩ := by
    rw [ofJson?, hread]
    rfl
  rw [hfound, Category.ofName?_name, Span.ofOffsets?_toNat]
  rfl

/-- Where the first output takes everything, the listing of a text is one line for each fragment. -/
theorem run_fragments {host : Host} (hsink : host.sink = .working) {words : List String}
    {invocation : Invocation} (hwords : Invocation.ofWords words = .ok invocation)
    (hcommand : invocation.command = "fragments") {config : Config} {text : Text}
    (hconfig : SettingsAre host invocation config) (hinput : InputIs host invocation text) :
    (run host words).status = .success ∧ (run host words).stdout =
      unlines ((classify config.scheme text).fragments.map
        (if invocation.json then fragmentJson else fragmentLine)) := by
  have htask : Task.ofName? invocation.command = some .fragments := by
    rw [hcommand]
    rfl
  obtain ⟨file, rfl, hagrees⟩ := runTask_of_loaded .fragments hconfig hinput
  rw [run_of_invocation hsink hwords, runInvocation_of_task htask, hagrees.1, hagrees.2]
  exact ⟨rfl, rfl⟩

/-- What a listing of fragments says. Each fragment has one line of its own, in order, and no other
newline is written. In columns a line has two tabs, and its category and range give the fragment
back when the source is cut there. As JSON a line is a record that holds the whole fragment, and the
texts of the records put together are the source. -/
theorem listing_reads_back {host : Host} (hsink : host.sink = .working) {words : List String}
    {invocation : Invocation} (hwords : Invocation.ofWords words = .ok invocation)
    (hcommand : invocation.command = "fragments") {config : Config} {text : Text}
    (hconfig : SettingsAre host invocation config) (hinput : InputIs host invocation text)
    (hsize : Text.bytes text < UInt32.size) :
    ∃ lines, (run host words).status = .success ∧ (run host words).stdout = unlines lines ∧
      (∀ line ∈ lines, '\n' ∉ line) ∧
      (invocation.json = false →
        List.Forall₂ InColumns lines (classify config.scheme text).fragments ∧
          lines.map (ofColumns? text) = (classify config.scheme text).fragments.map some) ∧
      (invocation.json = true →
        lines.map ofJson? = (classify config.scheme text).fragments.map some ∧
          (lines.filterMap ofJson?).flatMap Fragment.text = text) := by
  obtain ⟨hstatus, hstdout⟩ := run_fragments hsink hwords hcommand hconfig hinput
  refine ⟨_, hstatus, hstdout, ?_, ?_, ?_⟩
  · intro line hline
    obtain ⟨fragment, -, rfl⟩ := List.mem_map.mp hline
    cases invocation.json with
    | false => exact newline_not_mem_fragmentLine fragment
    | true => exact newline_not_mem_fragmentJson fragment
  · intro hjson
    rw [if_neg (ne_true_of_eq_false hjson)]
    constructor
    · exact List.forall₂_map_left_iff.mpr
        (List.forall₂_same.mpr fun fragment _ => inColumns_fragmentLine fragment)
    · rw [List.map_map]
      refine List.map_congr_left fun fragment hmem => ?_
      rw [Function.comp_apply, ofColumns?_fragmentLine (slice?_eq config.scheme hsize hmem)]
  · intro hjson
    have hread : (ofJson? ∘ fragmentJson) = some := funext ofJson?_fragmentJson
    rw [if_pos hjson]
    constructor
    · rw [List.map_map, hread]
    · rw [List.filterMap_map, hread, List.filterMap_some]
      exact wholeText_classify config.scheme text

/-- A tab in a plain fragment and a newline in a literal, in both forms of the listing. -/
theorem listing_reads_back_breaks :
    let host := Host.ofTexts [] "x\t\"\u00e9\n\""
    let fragments : List Fragment :=
      [⟨.plain, ⟨0, 2⟩, "x\t".toList⟩, ⟨.literal, ⟨2, 7⟩, "\"\u00e9\n\"".toList⟩]
    host.sink = .working ∧
      (∃ lines, (run host ["fragments", "-"]).stdout = unlines lines ∧
        List.Forall₂ InColumns lines fragments ∧
        lines.map (ofColumns? "x\t\"\u00e9\n\"".toList) = fragments.map some) ∧
      ∃ lines, (run host ["fragments", "--json", "-"]).stdout = unlines lines ∧
        lines.map ofJson? = fragments.map some := by
  intro host fragments
  have hsink : host.sink = .working := rfl
  have hfragments : (classify .literal "x\t\"\u00e9\n\"".toList).fragments = fragments := by
    decide +kernel
  have hinput : ∀ invocation : Invocation, invocation.operands = ["-"] →
      InputIs host invocation "x\t\"\u00e9\n\"".toList :=
    fun _ hoperand => ⟨"-", hoperand, holds_toUTF8 _⟩
  have hwords : Invocation.ofWords ["fragments", "-"] =
      .ok ⟨"fragments", .none, none, false, false, ["-"]⟩ := by
    decide +kernel
  have hother : Invocation.ofWords ["fragments", "--json", "-"] =
      .ok ⟨"fragments", .none, none, true, false, ["-"]⟩ := by
    decide +kernel
  obtain ⟨lines, -, hlines, -, hcolumns, -⟩ :=
    listing_reads_back hsink hwords rfl (.standard rfl) (hinput _ rfl) (by decide)
  obtain ⟨records, -, hrecords, -, -, hjson⟩ :=
    listing_reads_back hsink hother rfl (.standard rfl) (hinput _ rfl) (by decide)
  rw [← hfragments]
  exact ⟨hsink, ⟨lines, hlines, hcolumns rfl⟩, records, hrecords, (hjson rfl).1⟩

end Command

end CodeTint
