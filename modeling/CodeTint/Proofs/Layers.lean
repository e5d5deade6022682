import CodeTint.Proofs.ExitCodes

/-!
# The layers of settings

The settings of the markup come in three layers. What an option says wins over what the file with
settings says, and that wins over the standard settings. Each of the three settings is looked up on
its own, so one can come from an option, another from the file and the third from neither.
-/

namespace CodeTint.Command

/-- What the file with settings chooses; nothing is chosen where no file is named. -/
inductive FileChooses (host : Host) : Option String → Config.Choices → Prop where
  /-- No file is named. -/
  | nothing : FileChooses host none .none
  /-- The named file holds a document that makes the choices. -/
  | document {path : String} {text : Text} {chosen : Config.Choices}
    (htext : Holds (host.fileBytes path) text) (hchosen : Config.readDocument text = .ok chosen) :
    FileChooses host (some path) chosen

/-- A document gives its choices over the standard settings. -/
theorem read_eq_ok_iff {text : Text} {config : Config} :
    Config.read text = .ok config ↔
      ∃ chosen, Config.readDocument text = .ok chosen ∧
        config = Config.standard.override chosen := by
  rw [Config.read]
  cases Config.readDocument text with
  | error fault =>
    constructor
    · intro h
      cases h
    · rintro ⟨chosen, h, -⟩
      cases h
  | ok chosen =>
    constructor
    · intro h
      exact ⟨chosen, rfl, (Except.ok.inj h).symm⟩
    · rintro ⟨other, hother, rfl⟩
      rw [Except.ok.inj hother]
      rfl

/-- The settings in force are the standard ones under the choices of the file under the choices of
the arguments. -/
theorem settingsAre_iff {host : Host} {invocation : Invocation} {config : Config} :
    SettingsAre host invocation config ↔
      ∃ chosen, FileChooses host invocation.configPath chosen ∧
        config = (Config.standard.override chosen).override invocation.choices := by
  constructor
  · intro h
    cases h with
    | standard hpath => exact ⟨.none, hpath ▸ .nothing, rfl⟩
    | ofFile hpath htext hconfig =>
      obtain ⟨chosen, hchosen, rfl⟩ := read_eq_ok_iff.mp hconfig
      exact ⟨chosen, hpath ▸ .document htext hchosen, rfl⟩
  · rintro ⟨chosen, hfile, rfl⟩
    cases hpath : invocation.configPath with
    | none =>
      rw [hpath] at hfile
      cases hfile
      exact .standard hpath
    | some path =>
      rw [hpath] at hfile
      cases hfile with
      | document htext hchosen =>
        exact .ofFile hpath htext (read_eq_ok_iff.mpr ⟨chosen, hchosen, rfl⟩)

/-- Markup is written exactly for settings that are in force and a text that is there, and it is all
that is written. -/
theorem run_html_iff {host : Host} (hsink : host.sink = .working) {words : List String}
    {invocation : Invocation} {output : Text} (hwords : Invocation.ofWords words = .ok invocation)
    (hcommand : invocation.command = "html") :
    (run host words).status = .success ∧ (run host words).stdout = output ↔
      ∃ config text, SettingsAre host invocation config ∧ InputIs host invocation text ∧
        output = highlight config text := by
  have htask : Task.ofName? invocation.command = some .html := by
    rw [hcommand]
    rfl
  rw [run_of_invocation hsink hwords]
  constructor
  · rintro ⟨hstatus, hstdout⟩
    have hrefused : ¬ invocation.Refused host := by
      intro h
      rw [(runInvocation_of_refused h).1] at hstatus
      cases hstatus
    have htext : invocation.command ∈ textCommands := mem_textCommands_iff.mpr ⟨.html, htask⟩
    obtain ⟨config, text, hconfig, hinput⟩ := exists_loaded_of_not_refused htext hrefused
    obtain ⟨file, rfl, hagrees⟩ := runTask_of_loaded .html hconfig hinput
    rw [runInvocation_of_task htask, hagrees.2] at hstdout
    exact ⟨config, file.text, hconfig, hinput, hstdout.symm⟩
  · rintro ⟨config, text, hconfig, hinput, rfl⟩
    obtain ⟨file, rfl, hagrees⟩ := runTask_of_loaded .html hconfig hinput
    rw [runInvocation_of_task htask, hagrees.1, hagrees.2]
    exact ⟨rfl, rfl⟩

/-- Which settings the markup is written under. A run succeeds with an output exactly when its
arguments are units, the file that the last of them names makes its choices, the only operand leads
to a text, and the output is the markup of this text and nothing else, where each setting is the one
of the last option for it, or else the one that the file chooses, or else the standard one. -/
theorem html_settings_layered {host : Host} (hsink : host.sink = .working) (rest : List String)
    (output : Text) :
    (run host ("html" :: rest)).status = .success ∧ (run host ("html" :: rest)).stdout = output ↔
      ∃ items chosen path text,
        rest = items.flatMap Item.words ∧ (∀ item ∈ items, item.WellFormed) ∧
        FileChooses host (Item.last? Item.configPath? items) chosen ∧
        items.filterMap Item.operand? = [path] ∧ Names host path text ∧
        output = highlight
          { scheme := ((Item.last? Item.scheme? items).or chosen.scheme).getD .literal
            classPrefix := ((Item.last? Item.classPrefix? items).or chosen.classPrefix).getD "cpp-"
            element := ((Item.last? Item.element? items).or chosen.element).getD "span" } text := by
  rcases words_cases ("html" :: rest) with ⟨fault, hfault⟩ | ⟨invocation, hwords⟩
  · constructor
    · rintro ⟨hstatus, -⟩
      rw [run_of_fault hfault] at hstatus
      cases hstatus
    · rintro ⟨items, chosen, path, text, rfl, hitems, -⟩
      rw [Invocation.ofWords_eq_ok_iff.mpr ⟨"html", items, rfl, hitems, rfl⟩] at hfault
      cases hfault
  · obtain ⟨command, items, hrest, hitems, rfl⟩ := Invocation.ofWords_eq_ok_iff.mp hwords
    obtain ⟨rfl, rfl⟩ := List.cons.inj hrest
    rw [run_html_iff hsink hwords (by rw [Invocation.ofItems_eq])]
    simp only [settingsAre_iff, InputIs, Invocation.ofItems_eq, Config.override, Option.getD_or]
    constructor
    · rintro ⟨_, text, ⟨chosen, hfile, rfl⟩, ⟨path, hoperand, hnames⟩, rfl⟩
      exact ⟨items, chosen, path, text, rfl, hitems, hfile, hoperand, hnames, rfl⟩
    · rintro ⟨others, chosen, path, text, hothers, hwell, hfile, hoperand, hnames, rfl⟩
      obtain rfl : items = others := eq_of_flatMap_words hitems hwell hothers
      exact ⟨_, text, ⟨chosen, hfile, rfl⟩, ⟨path, hoperand, hnames⟩, rfl⟩

/-- The scheme comes from the file, the class names from the last of two options that disagree with
the file, and the element from neither. -/
theorem html_settings_layered_mixed :
    let host := Host.ofTexts
      [("tint.json", "\x7b\"scheme\": \"string-only\", \"class_prefix\": \"x-\"\x7d")] "\"s\" 1"
    let rest := ["--prefix", "z-", "--config", "tint.json", "--prefix", "y-", "-"]
    host.sink = .working ∧ (run host ("html" :: rest)).status = .success ∧
      (run host ("html" :: rest)).stdout = "<span class=\"y-string\">\"s\"</span> 1".toList := by
  intro host rest
  have hsink : host.sink = .working := rfl
  have hdocument : Config.readDocument
      "\x7b\"scheme\": \"string-only\", \"class_prefix\": \"x-\"\x7d".toList =
        .ok ⟨some .stringOnly, some "x-", none⟩ := by
    decide +kernel
  have hitems : ∀ item ∈ [Item.classPrefix "z-", .configPath "tint.json", .classPrefix "y-",
      .operand "-"], item.WellFormed := by
    decide
  have hmarkup : "<span class=\"y-string\">\"s\"</span> 1".toList =
      highlight ⟨.stringOnly, "y-", "span"⟩ "\"s\" 1".toList := by
    decide +kernel
  exact ⟨hsink, (html_settings_layered hsink rest _).mpr
    ⟨_, _, "-", _, rfl, hitems, .document (holds_toUTF8 _) hdocument, rfl, holds_toUTF8 _,
      hmarkup⟩⟩

end CodeTint.Command
