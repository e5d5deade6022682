import CodeTint.Command.Run

/-!
# What a run loads

Bytes are readable as a text exactly when they are its UTF-8 form. The settings of a run are those
of the file that is named, or the standard ones, under the choices of the arguments; they fail to
load for reasons that concern the file alone. The text of a run is what its only operand leads to.
Settings are asked for first, so what is wrong with them hides what is wrong with the text.
-/

namespace CodeTint.Command

/-- The answer has bytes, and they are the UTF-8 form of the text. -/
def Holds (answer : Except StreamFault ByteArray) (text : Text) : Prop :=
  answer = .ok (String.ofList text).toUTF8

/-- Surroundings in which some files and the input stream hold texts, and nothing else is there. -/
def Host.ofTexts (files : List (String × String)) (input : String) : Host where
  fileBytes path := ((files.lookup path).map String.toUTF8).elim (.error .missing) .ok
  inputBytes := .ok input.toUTF8
  wording := ⟨fun _ => [], fun _ => []⟩
  logSetting := none
  log := Log.plain
  sink := .working
  lastWords _ := []

/-- Why an answer holds no text: there are no bytes, or they are not the UTF-8 form of any. -/
inductive Unreadable : Except StreamFault ByteArray → StreamFault → Prop where
  /-- The reason why there are no bytes. -/
  | refused (fault : StreamFault) : Unreadable (.error fault) fault
  /-- The bytes are not the UTF-8 form of a text. -/
  | notText {bytes : ByteArray} (h : ∀ text : Text, bytes ≠ (String.ofList text).toUTF8) :
    Unreadable (.ok bytes) .notText

/-- Where the reason is not the bytes, there are none. -/
theorem Unreadable.eq_error {answer : Except StreamFault ByteArray} {fault : StreamFault}
    (h : Unreadable answer fault) (hfault : fault ≠ .notText) : answer = .error fault := by
  cases h with
  | refused => rfl
  | notText => exact absurd rfl hfault

/-- The UTF-8 form of a text is read as that text. -/
theorem holds_toUTF8 (text : String) : Holds (.ok text.toUTF8) text.toList := by
  rw [Holds, String.ofList_toList]

/-- An answer holds at most one text. -/
theorem Holds.unique {answer : Except StreamFault ByteArray} {first second : Text}
    (hfirst : Holds answer first) (hsecond : Holds answer second) : first = second := by
  have hbytes := Except.ok.inj (hfirst.symm.trans hsecond)
  have htexts : String.ofList first = String.ofList second := String.toByteArray_inj.mp hbytes
  rw [← String.toList_ofList (l := first), htexts, String.toList_ofList]

/-- A text is read from bytes that are its UTF-8 form, and only from these. -/
theorem fromUTF8?_eq_some_iff {bytes : ByteArray} {text : String} :
    String.fromUTF8? bytes = some text ↔ bytes = text.toUTF8 := by
  rw [String.fromUTF8?]
  split
  · constructor
    · intro h
      rw [← Option.some.inj h]
      rfl
    · rintro rfl
      rfl
  · next hinvalid =>
    constructor
    · intro h
      cases h
    · rintro rfl
      exact absurd text.isValidUTF8 hinvalid

/-- Reading and decoding gives the text that the answer holds. -/
theorem decode_eq_ok_iff {answer : Except StreamFault ByteArray} {text : Text} :
    (answer >>= decode) = .ok text ↔ Holds answer text := by
  cases answer with
  | error fault =>
    constructor <;> intro h <;> cases h
  | ok bytes =>
    change decode bytes = .ok text ↔ _
    rw [decode, Holds, Except.ok.injEq, ← fromUTF8?_eq_some_iff]
    cases hbytes : String.fromUTF8? bytes with
    | none =>
      constructor <;> intro h <;> cases h
    | some found =>
      constructor
      · intro h
        rw [← Except.ok.inj h, String.ofList_toList]
      · intro h
        rw [Option.some.inj h]
        exact congrArg Except.ok String.toList_ofList

/-- Reading and decoding fails for the reason why the answer holds no text. -/
theorem decode_eq_error_iff {answer : Except StreamFault ByteArray} {fault : StreamFault} :
    (answer >>= decode) = .error fault ↔ Unreadable answer fault := by
  constructor
  · intro h
    cases answer with
    | error reason => exact Except.error.inj h ▸ .refused reason
    | ok bytes =>
      have hnone : ∀ text : Text, bytes ≠ (String.ofList text).toUTF8 := by
        rintro text rfl
        rw [decode_eq_ok_iff.mpr rfl] at h
        cases h
      change decode bytes = .error fault at h
      rw [decode] at h
      split at h
      · cases h
      · cases h
        exact .notText hnone
  · rintro (⟨⟩ | hnone)
    · rfl
    · next bytes =>
      cases hdecode : ((.ok bytes : Except StreamFault ByteArray) >>= decode) with
      | ok text => exact absurd (Except.ok.inj (decode_eq_ok_iff.mp hdecode)) (hnone text)
      | error reason =>
        change decode bytes = .error reason at hdecode
        rw [decode] at hdecode
        split at hdecode
        · cases hdecode
        · rw [← hdecode]

section Settings

variable {host : Host} {invocation : Invocation}

/-- A file that holds a text gives the settings that the text is a document of. -/
theorem readConfigFile_of_holds {path : String} {text : Text}
    (h : Holds (host.fileBytes path) text) :
    readConfigFile host path = (Config.read text).mapError fun fault =>
      .badConfig path (host.wording.reason text fault) := by
  rw [readConfigFile, decode_eq_ok_iff.mpr h]

/-- A file that holds no text gives no settings. -/
theorem readConfigFile_of_unreadable {path : String} {fault : StreamFault}
    (h : Unreadable (host.fileBytes path) fault) :
    readConfigFile host path = .error (.unreadableFile path fault) := by
  rw [readConfigFile, decode_eq_error_iff.mpr h]

/-- The settings in force: standard ones, or those in the file that is named, each under the choices
made in the arguments. -/
inductive SettingsAre (host : Host) (invocation : Invocation) : Config → Prop where
  /-- No file is named. -/
  | standard (h : invocation.configPath = none) :
    SettingsAre host invocation (Config.standard.override invocation.choices)
  /-- The named file holds a document with settings. -/
  | ofFile {path : String} {text : Text} {config : Config}
    (hpath : invocation.configPath = some path) (htext : Holds (host.fileBytes path) text)
    (hconfig : Config.read text = .ok config) :
    SettingsAre host invocation (config.override invocation.choices)

/-- Why there are no settings. -/
inductive SettingsFail (host : Host) (invocation : Invocation) : Failure → Prop where
  /-- The named file cannot be read as text. -/
  | unreadable {path : String} {fault : StreamFault} (hpath : invocation.configPath = some path)
    (hfault : Unreadable (host.fileBytes path) fault) :
    SettingsFail host invocation (.unreadableFile path fault)
  /-- The named file holds no document with settings. -/
  | refused {path : String} {text : Text} {fault : Config.Fault}
    (hpath : invocation.configPath = some path) (htext : Holds (host.fileBytes path) text)
    (hfault : Config.read text = .error fault) :
    SettingsFail host invocation (.badConfig path (host.wording.reason text fault))

/-- Settings that are in force are loaded. -/
theorem loadConfig_of_settings {config : Config} (h : SettingsAre host invocation config) :
    loadConfig host invocation = .ok config := by
  cases h with
  | standard hpath =>
    rw [loadConfig, baseConfig, hpath]
    rfl
  | ofFile hpath htext hconfig =>
    rw [loadConfig, baseConfig, hpath]
    dsimp only
    rw [readConfigFile_of_holds htext, hconfig]
    rfl

/-- What keeps settings from being in force is the failure to load them. -/
theorem loadConfig_of_fail {failure : Failure} (h : SettingsFail host invocation failure) :
    loadConfig host invocation = .error failure := by
  cases h with
  | unreadable hpath hfault =>
    rw [loadConfig, baseConfig, hpath]
    dsimp only
    rw [readConfigFile_of_unreadable hfault]
    rfl
  | refused hpath htext hfault =>
    rw [loadConfig, baseConfig, hpath]
    dsimp only
    rw [readConfigFile_of_holds htext, hfault]
    rfl

/-- Settings are in force, or something keeps them from being so. -/
theorem settings_or_fail (host : Host) (invocation : Invocation) :
    (∃ config, SettingsAre host invocation config) ∨
      ∃ failure, SettingsFail host invocation failure := by
  cases hpath : invocation.configPath with
  | none => exact Or.inl ⟨_, .standard hpath⟩
  | some path =>
    cases hread : host.fileBytes path >>= decode with
    | error fault => exact Or.inr ⟨_, .unreadable hpath (decode_eq_error_iff.mp hread)⟩
    | ok text =>
      have htext := decode_eq_ok_iff.mp hread
      cases hconfig : Config.read text with
      | error fault => exact Or.inr ⟨_, .refused hpath htext hconfig⟩
      | ok config => exact Or.inl ⟨_, .ofFile hpath htext hconfig⟩

end Settings

/-- An operand leads to a text: the single dash to that of the input stream, any other word to that
of a file. -/
def Names (host : Host) (path : String) (text : Text) : Prop :=
  Holds (if path = "-" then host.inputBytes else host.fileBytes path) text

/-- The text of a run is the one that its only operand leads to. -/
def InputIs (host : Host) (invocation : Invocation) (text : Text) : Prop :=
  ∃ path, invocation.operands = [path] ∧ Names host path text

/-- A single operand is loaded from the answer that it leads to. -/
theorem exists_loadSource (host : Host) {invocation : Invocation} {path : String}
    (h : invocation.operands = [path]) :
    ∃ (name : String) (complaint : StreamFault → Failure), loadSource host invocation =
      match (if path = "-" then host.inputBytes else host.fileBytes path) >>= decode with
      | .error fault => .error (complaint fault)
      | .ok text => .ok ⟨name, text⟩ := by
  rw [loadSource, h]
  dsimp only
  split
  · exact ⟨"<stdin>", .unreadableInput, rfl⟩
  · exact ⟨path, .unreadableFile path, rfl⟩

/-- The source that is loaded holds the text of the run, and where none is loaded there is no such
text. -/
theorem loadSource_spec (host : Host) (invocation : Invocation) :
    (∃ file, loadSource host invocation = .ok file ∧ InputIs host invocation file.text) ∨
      ∃ failure, loadSource host invocation = .error failure ∧
        ¬ ∃ text, InputIs host invocation text := by
  by_cases hone : ∃ path, invocation.operands = [path]
  · obtain ⟨path, hpath⟩ := hone
    obtain ⟨name, complaint, hload⟩ := exists_loadSource host hpath
    rw [hload]
    cases hread : (if path = "-" then host.inputBytes else host.fileBytes path) >>= decode with
    | ok text => exact Or.inl ⟨_, rfl, path, hpath, decode_eq_ok_iff.mp hread⟩
    | error fault =>
      refine Or.inr ⟨_, rfl, ?_⟩
      rintro ⟨text, other, hother, hnames⟩
      rw [hpath] at hother
      obtain rfl := List.singleton_inj.mp hother
      rw [decode_eq_ok_iff.mpr hnames] at hread
      cases hread
  · refine Or.inr ⟨.missingFile, ?_, ?_⟩
    · rw [loadSource]
      split
      · next path hpath => exact absurd ⟨path, hpath⟩ hone
      · rfl
    · rintro ⟨text, path, hpath, -⟩
      exact hone ⟨path, hpath⟩

/-- A run has at most one text. -/
theorem InputIs.unique {host : Host} {invocation : Invocation} {first second : Text}
    (hfirst : InputIs host invocation first) (hsecond : InputIs host invocation second) :
    first = second := by
  obtain ⟨path, hpath, hfirst⟩ := hfirst
  obtain ⟨other, hother, hsecond⟩ := hsecond
  rw [hpath] at hother
  obtain rfl := List.singleton_inj.mp hother
  exact hfirst.unique hsecond

end CodeTint.Command
