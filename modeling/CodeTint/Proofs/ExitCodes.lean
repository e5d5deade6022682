import CodeTint.Proofs.Framing
import CodeTint.Proofs.Loading
import CodeTint.Proofs.Units
import CodeTint.Proofs.Warning

/-!
# Exit codes and the first output

A run fails exactly when its arguments, its command, its operands, its settings or its text are not
in order, and then nothing is written to the first output. Of settings and text that are both not in
order the settings are complained about. A check that finds something ends with a code of its own;
everything else succeeds. What is logged shows on the second output only.
-/

namespace CodeTint.Command

/-- The names of the tasks that work on a text. -/
def textCommands : List String :=
  ["html", "fragments", "check"]

/-- A file with settings is named, but holds no text that is a document with settings. -/
def BadSettings (host : Host) (invocation : Invocation) : Prop :=
  ∃ path, invocation.configPath = some path ∧
    ¬ ∃ text config, Holds (host.fileBytes path) text ∧ Config.read text = .ok config

/-- What is said about a file with settings that is not in order. -/
inductive Complaint (host : Host) (path : String) : Text → Prop where
  /-- The operating system refuses to read it. -/
  | system {description : String} {code : Nat}
    (h : host.fileBytes path = .error (.system description code)) :
    Complaint host path ("Read failed: ".toList ++ path.toList ++ ": ".toList ++
      (description.toList ++ " (os error ".toList ++ Text.digits code ++ [')']))
  /-- It cannot be read for another reason. -/
  | other {reason : String} (h : host.fileBytes path = .error (.other reason)) :
    Complaint host path ("Read failed: ".toList ++ path.toList ++ ": ".toList ++ reason.toList)
  /-- Its bytes are not the UTF-8 form of a text. -/
  | notText (h : Unreadable (host.fileBytes path) .notText) :
    Complaint host path ("Read failed: ".toList ++ path.toList ++ ": ".toList ++
      "stream did not contain valid UTF-8".toList)
  /-- Its text is no JSON, which the reader of settings says in its own words. -/
  | syntaxError {text : Text} {fault : Json.Fault} (htext : Holds (host.fileBytes path) text)
    (hfault : Config.read text = .error (.json fault)) :
    Complaint host path ("Invalid config ".toList ++ path.toList ++ ": ".toList ++
      (host.wording.syntaxError text ++ host.wording.place text))
  /-- Its text is JSON that says something else than settings. -/
  | noSettings {text message : Text} {fault : Config.Fault}
    (htext : Holds (host.fileBytes path) text) (hfault : Config.read text = .error fault)
    (hmessage : fault.message? = some message) :
    Complaint host path ("Invalid config ".toList ++ path.toList ++ ": ".toList ++
      (message ++ host.wording.place text))

/-- What an invocation can be refused for. -/
inductive Invocation.Refused (host : Host) (invocation : Invocation) : Prop where
  /-- There is no such command. -/
  | command (h : invocation.command ∉ "keywords" :: textCommands)
  /-- Operands are given where none are taken. -/
  | operand (hcommand : invocation.command = "keywords") (h : invocation.operands ≠ [])
  /-- The settings are bad. -/
  | settings (hcommand : invocation.command ∈ textCommands) (h : BadSettings host invocation)
  /-- There is not exactly one operand that leads to a text. -/
  | input (hcommand : invocation.command ∈ textCommands)
    (h : ¬ ∃ text, InputIs host invocation text)

/-- The words are not accepted as arguments, or the invocation that they make is refused. -/
def Refused (host : Host) (words : List String) : Prop :=
  (∃ fault, Invocation.ofWords words = .error fault) ∨
    ∃ invocation, Invocation.ofWords words = .ok invocation ∧ invocation.Refused host

/-- The command is the check, settings and text are there, and scanning the text under the scheme
of the settings gives a warning. -/
def Invocation.Finds (host : Host) (invocation : Invocation) : Prop :=
  invocation.command = "check" ∧ ∃ config text, SettingsAre host invocation config ∧
    InputIs host invocation text ∧ Diagnostic.ofTokens (config.scheme.tokens text) ≠ []

/-- The words make an invocation that finds something. -/
def Finds (host : Host) (words : List String) : Prop :=
  ∃ invocation, Invocation.ofWords words = .ok invocation ∧ invocation.Finds host

/-- Two outcomes that can only be told apart on the second output. -/
def Outcome.Agrees (first second : Outcome) : Prop :=
  first.status = second.status ∧ first.stdout = second.stdout

/-- The commands that work on a text are the tasks. -/
theorem mem_textCommands_iff {word : String} :
    word ∈ textCommands ↔ ∃ task, Task.ofName? word = some task := by
  constructor
  · intro h
    simp only [textCommands, List.mem_cons, List.not_mem_nil, or_false] at h
    rcases h with rfl | rfl | rfl
    · exact ⟨.html, rfl⟩
    · exact ⟨.fragments, rfl⟩
    · exact ⟨.check, rfl⟩
  · rintro ⟨task, h⟩
    unfold Task.ofName? at h
    split at h
    · decide
    · decide
    · decide
    · cases h

/-- A check is asked for by one name only. -/
theorem ofName?_eq_check_iff {word : String} :
    Task.ofName? word = some .check ↔ word = "check" := by
  constructor
  · intro h
    unfold Task.ofName? at h
    split at h
    · cases h
    · cases h
    · rfl
    · cases h
  · rintro rfl
    rfl

section Task

variable {host : Host} {invocation : Invocation} {task : Task}

/-- Settings are bad exactly when something keeps them from being in force. -/
theorem badSettings_iff :
    BadSettings host invocation ↔ ∃ failure, SettingsFail host invocation failure := by
  constructor
  · rintro ⟨path, hpath, hnone⟩
    rcases settings_or_fail host invocation with ⟨config, hconfig⟩ | hfail
    · exfalso
      cases hconfig with
      | standard hnopath =>
        rw [hpath] at hnopath
        cases hnopath
      | ofFile hother htext hconfig =>
        rw [hpath] at hother
        cases hother
        exact hnone ⟨_, _, htext, hconfig⟩
    · exact hfail
  · rintro ⟨failure, hfail⟩
    cases hfail with
    | unreadable hpath hfault =>
      refine ⟨_, hpath, ?_⟩
      rintro ⟨text, config, htext, -⟩
      have hread := decode_eq_error_iff.mpr hfault
      rw [decode_eq_ok_iff.mpr htext] at hread
      cases hread
    | refused hpath htext hfault =>
      refine ⟨_, hpath, ?_⟩
      rintro ⟨text, config, hother, hconfig⟩
      rw [htext.unique hother, hconfig] at hfault
      cases hfault

/-- What keeps settings from being in force is a complaint about the file that is named. -/
theorem complaint_of_fail {failure : Failure} (h : SettingsFail host invocation failure) :
    ∃ path, invocation.configPath = some path ∧ Complaint host path failure.message := by
  cases h with
  | @unreadable path fault hpath hfault =>
    refine ⟨path, hpath, ?_⟩
    rw [Failure.message_unreadableFile]
    cases fault with
    | system description code =>
      rw [StreamFault.message_system]
      exact .system (hfault.eq_error StreamFault.noConfusion)
    | other reason =>
      rw [StreamFault.message_other]
      exact .other (hfault.eq_error StreamFault.noConfusion)
    | notText =>
      rw [StreamFault.message_notText]
      exact .notText hfault
  | @refused path text fault hpath htext hfault =>
    refine ⟨path, hpath, ?_⟩
    rw [Failure.message_badConfig, Wording.reason]
    cases hmessage : fault.message? with
    | some message => exact .noSettings htext hfault hmessage
    | none =>
      obtain ⟨reason, rfl⟩ := Config.Fault.message?_eq_none_iff.mp hmessage
      exact .syntaxError htext hfault

/-- A complaint about a file is the message of the failure to read settings from it. -/
theorem Complaint.exists_failure {path : String} {complaint : Text}
    (h : Complaint host path complaint) :
    ∃ failure, readConfigFile host path = .error failure ∧ complaint = failure.message := by
  cases h with
  | system hanswer =>
    refine ⟨_, readConfigFile_of_unreadable (by rw [hanswer]; exact .refused _), ?_⟩
    rw [Failure.message_unreadableFile, StreamFault.message_system]
  | other hanswer =>
    refine ⟨_, readConfigFile_of_unreadable (by rw [hanswer]; exact .refused _), ?_⟩
    rw [Failure.message_unreadableFile, StreamFault.message_other]
  | notText hanswer =>
    refine ⟨_, readConfigFile_of_unreadable hanswer, ?_⟩
    rw [Failure.message_unreadableFile, StreamFault.message_notText]
  | syntaxError htext hfault =>
    refine ⟨_, by rw [readConfigFile_of_holds htext, hfault]; rfl, ?_⟩
    rw [Failure.message_badConfig, Wording.reason, Config.Fault.message?_json, Option.getD_none]
  | noSettings htext hfault hmessage =>
    refine ⟨_, by rw [readConfigFile_of_holds htext, hfault]; rfl, ?_⟩
    rw [Failure.message_badConfig, Wording.reason, hmessage, Option.getD_some]

/-- A file is complained about in one way. -/
theorem Complaint.unique {path : String} {first second : Text}
    (hfirst : Complaint host path first) (hsecond : Complaint host path second) :
    first = second := by
  obtain ⟨failure, hread, rfl⟩ := hfirst.exists_failure
  obtain ⟨other, hother, rfl⟩ := hsecond.exists_failure
  rw [Except.error.inj (hread.symm.trans hother)]

/-- What keeps settings from being in force ends a task before anything else is looked at. -/
theorem runTask_of_fail {failure : Failure} (h : SettingsFail host invocation failure) :
    runTask host invocation task = .failed [] failure := by
  rw [runTask, loadConfig_of_fail h]

/-- Without a text a task fails and writes nothing to the first output. -/
theorem runTask_of_no_input (h : ¬ ∃ text, InputIs host invocation text) :
    (runTask host invocation task).status = .failure ∧
      (runTask host invocation task).stdout = [] := by
  rcases settings_or_fail host invocation with ⟨config, hconfig⟩ | ⟨failure, hfail⟩
  · rcases loadSource_spec host invocation with ⟨file, -, hinput⟩ | ⟨failure, hload, -⟩
    · exact absurd ⟨_, hinput⟩ h
    · rw [runTask, loadConfig_of_settings hconfig]
      dsimp only
      rw [hload]
      exact ⟨rfl, rfl⟩
  · rw [runTask_of_fail hfail]
    exact ⟨rfl, rfl⟩

/-- With settings and a text a task is performed. -/
theorem runTask_of_loaded (task : Task) {config : Config} {text : Text}
    (hconfig : SettingsAre host invocation config) (hinput : InputIs host invocation text) :
    ∃ file : Source.File, file.text = text ∧
      (runTask host invocation task).Agrees (perform task invocation.json config file) := by
  rcases loadSource_spec host invocation with ⟨file, hload, hfile⟩ | ⟨failure, -, hnone⟩
  · refine ⟨file, hfile.unique hinput, ?_⟩
    rw [runTask, loadConfig_of_settings hconfig]
    dsimp only
    rw [hload]
    exact ⟨rfl, rfl⟩
  · exact absurd ⟨text, hinput⟩ hnone

end Task

/-- A task that is performed finds something only when it is a check and there is a warning, and
never fails. -/
theorem status_perform (task : Task) (json : Bool) (config : Config) (file : Source.File) :
    (perform task json config file).status =
      if task = .check ∧ Diagnostic.ofTokens (config.scheme.tokens file.text) ≠ [] then .findings
      else .success := by
  cases task with
  | html => rfl
  | fragments => rfl
  | check =>
    have hstatus : (perform .check json config file).status =
        if (Diagnostic.ofTokens (config.scheme.tokens file.text)).isEmpty then .success
        else .findings := by
      cases json <;> rfl
    rw [hstatus]
    simp only [List.isEmpty_iff, true_and, ne_eq, ite_not]

/-- A check that finds something writes one line as JSON, and nothing otherwise. -/
theorem stdout_perform_check (json : Bool) (config : Config) (file : Source.File)
    (h : Diagnostic.ofTokens (config.scheme.tokens file.text) ≠ []) :
    (json = true → ∃ line, (perform .check json config file).stdout = line ++ ['\n'] ∧
        '\n' ∉ line) ∧
      (json = false → (perform .check json config file).stdout = []) := by
  constructor
  · rintro rfl
    have hone : (Diagnostic.ofTokens (config.scheme.tokens file.text)).length ≤ 1 := by
      rw [Scheme.tokens, Token.lex, Token.lexUnder, Diagnostic.ofTokens_scan]
      exact Option.length_toList_le
    match hwarnings : Diagnostic.ofTokens (config.scheme.tokens file.text), h, hone with
    | [diagnostic], _, _ =>
      refine ⟨diagnosticJson file diagnostic, ?_, newline_not_mem_diagnosticJson file diagnostic⟩
      have hout : (perform .check true config file).stdout =
          unlines ((Diagnostic.ofTokens (config.scheme.tokens file.text)).map
            (diagnosticJson file)) := rfl
      rw [hout, hwarnings]
      exact List.append_nil _
  · rintro rfl
    rfl

section Invocation

variable {host : Host} {invocation : Invocation}

/-- A command that is the name of a task runs the task. -/
theorem runInvocation_of_task {task : Task} (h : Task.ofName? invocation.command = some task) :
    runInvocation host invocation = runTask host invocation task := by
  rw [runInvocation, h]

/-- The reserved words are listed under their own name. -/
theorem runInvocation_of_keywords (h : invocation.command = "keywords") :
    runInvocation host invocation = runKeywords invocation := by
  rw [runInvocation, h]
  rfl

/-- An invocation that is refused fails and writes nothing to the first output. -/
theorem runInvocation_of_refused (h : invocation.Refused host) :
    (runInvocation host invocation).status = .failure ∧
      (runInvocation host invocation).stdout = [] := by
  cases h with
  | command hcommand =>
    rw [List.mem_cons, not_or] at hcommand
    have htask : Task.ofName? invocation.command = none := by
      cases hname : Task.ofName? invocation.command with
      | none => rfl
      | some task => exact absurd (mem_textCommands_iff.mpr ⟨task, hname⟩) hcommand.2
    rw [runInvocation, htask]
    dsimp only
    rw [if_neg hcommand.1]
    exact ⟨rfl, rfl⟩
  | operand hcommand hoperands =>
    rw [runInvocation_of_keywords hcommand, runKeywords, if_neg (mt List.isEmpty_iff.mp hoperands)]
    exact ⟨rfl, rfl⟩
  | settings hcommand hbad =>
    obtain ⟨task, htask⟩ := mem_textCommands_iff.mp hcommand
    obtain ⟨failure, hfail⟩ := badSettings_iff.mp hbad
    rw [runInvocation_of_task htask, runTask_of_fail hfail]
    exact ⟨rfl, rfl⟩
  | input hcommand hnone =>
    obtain ⟨task, htask⟩ := mem_textCommands_iff.mp hcommand
    rw [runInvocation_of_task htask]
    exact runTask_of_no_input hnone

/-- An invocation that finds something is a check that is performed with a warning. -/
theorem runInvocation_of_finds (h : invocation.Finds host) :
    ∃ config file, Diagnostic.ofTokens (config.scheme.tokens file.text) ≠ [] ∧
      (runInvocation host invocation).Agrees (perform .check invocation.json config file) := by
  obtain ⟨hcommand, config, text, hconfig, hinput, hwarnings⟩ := h
  obtain ⟨file, rfl, hagrees⟩ := runTask_of_loaded .check hconfig hinput
  refine ⟨config, file, hwarnings, ?_⟩
  rw [runInvocation_of_task (ofName?_eq_check_iff.mpr hcommand)]
  exact hagrees

/-- A task that is not refused has settings and a text. -/
theorem exists_loaded_of_not_refused (hcommand : invocation.command ∈ textCommands)
    (h : ¬ invocation.Refused host) :
    ∃ config text, SettingsAre host invocation config ∧ InputIs host invocation text := by
  have hinput : ∃ text, InputIs host invocation text :=
    Classical.not_not.mp fun hnone => h (.input hcommand hnone)
  obtain ⟨text, htext⟩ := hinput
  rcases settings_or_fail host invocation with ⟨config, hconfig⟩ | hfail
  · exact ⟨config, text, hconfig, htext⟩
  · exact absurd (.settings hcommand (badSettings_iff.mpr hfail)) h

/-- An invocation that is not refused and finds nothing goes well. -/
theorem runInvocation_of_neither (hrefused : ¬ invocation.Refused host)
    (hfinds : ¬ invocation.Finds host) : (runInvocation host invocation).status = .success := by
  have hcommand : invocation.command ∈ "keywords" :: textCommands :=
    Classical.not_not.mp fun h => hrefused (.command h)
  rcases List.mem_cons.mp hcommand with hkeywords | htext
  · have hoperands : invocation.operands = [] :=
      Classical.not_not.mp fun h => hrefused (.operand hkeywords h)
    rw [runInvocation_of_keywords hkeywords, runKeywords, if_pos (List.isEmpty_iff.mpr hoperands)]
  · obtain ⟨config, text, hconfig, hinput⟩ := exists_loaded_of_not_refused htext hrefused
    obtain ⟨task, htask⟩ := mem_textCommands_iff.mp htext
    obtain ⟨file, rfl, hagrees⟩ := runTask_of_loaded task hconfig hinput
    rw [runInvocation_of_task htask, hagrees.1, status_perform, if_neg]
    rintro ⟨rfl, hwarnings⟩
    exact hfinds ⟨ofName?_eq_check_iff.mp htask, config, _, hconfig, hinput, hwarnings⟩

/-- What is logged shows on the second output only. -/
theorem runInvocation_agrees (host : Host) (invocation : Invocation) (setting : Option String)
    (log : Option String → Bool → List Log.Event → Text) (verbose : Bool) :
    (runInvocation { host with logSetting := setting, log := log }
      { invocation with verbose := verbose }).Agrees (runInvocation host invocation) := by
  cases htask : Task.ofName? invocation.command with
  | none =>
    rw [runInvocation, runInvocation, htask]
    exact ⟨rfl, rfl⟩
  | some task =>
    rw [runInvocation_of_task htask, runInvocation_of_task (by exact htask), runTask, runTask]
    have hconfig : loadConfig { host with logSetting := setting, log := log }
        { invocation with verbose := verbose } = loadConfig host invocation := rfl
    have hsource : loadSource { host with logSetting := setting, log := log }
        { invocation with verbose := verbose } = loadSource host invocation := rfl
    dsimp only
    rw [hconfig, hsource]
    cases loadConfig host invocation with
    | error failure => exact ⟨rfl, rfl⟩
    | ok config =>
      cases loadSource host invocation with
      | error failure => exact ⟨rfl, rfl⟩
      | ok file => exact ⟨rfl, rfl⟩

end Invocation

section Run

variable {host : Host} {words : List String}

/-- Words that make no invocation are answered with what is wrong with them. -/
theorem run_of_fault {fault : ArgumentFault} (h : Invocation.ofWords words = .error fault) :
    run host words = .failed [] (.arguments fault) := by
  rw [run, h]

/-- Where the first output takes everything, words that make an invocation are answered with what
the invocation leaves behind. -/
theorem run_of_invocation (hsink : host.sink = .working) {invocation : Invocation}
    (h : Invocation.ofWords words = .ok invocation) :
    run host words = runInvocation host invocation := by
  rw [run, h]
  dsimp only
  rw [hsink]
  rfl

/-- Words make an invocation or there is something wrong with them. -/
theorem words_cases (words : List String) :
    (∃ fault, Invocation.ofWords words = .error fault) ∨
      ∃ invocation, Invocation.ofWords words = .ok invocation := by
  cases Invocation.ofWords words with
  | error fault => exact Or.inl ⟨fault, rfl⟩
  | ok invocation => exact Or.inr ⟨invocation, rfl⟩

/-- A run that is refused fails and writes nothing to the first output. -/
theorem run_of_refused (hsink : host.sink = .working) (h : Refused host words) :
    (run host words).status = .failure ∧ (run host words).stdout = [] := by
  rcases h with ⟨fault, hfault⟩ | ⟨invocation, hwords, hrefused⟩
  · rw [run_of_fault hfault]
    exact ⟨rfl, rfl⟩
  · rw [run_of_invocation hsink hwords]
    exact runInvocation_of_refused hrefused

/-- A run that finds something ends with a status of its own. -/
theorem run_of_finds (hsink : host.sink = .working) (h : Finds host words) :
    (run host words).status = .findings := by
  obtain ⟨invocation, hwords, hfinds⟩ := h
  obtain ⟨config, file, hwarnings, hagrees⟩ := runInvocation_of_finds hfinds
  rw [run_of_invocation hsink hwords, hagrees.1, status_perform, if_pos ⟨rfl, hwarnings⟩]

/-- A run that is not refused and finds nothing goes well. -/
theorem run_of_neither (hsink : host.sink = .working) (hrefused : ¬ Refused host words)
    (hfinds : ¬ Finds host words) : (run host words).status = .success := by
  rcases words_cases words with hfault | ⟨invocation, hwords⟩
  · exact absurd (Or.inl hfault) hrefused
  · rw [run_of_invocation hsink hwords]
    exact runInvocation_of_neither (fun h => hrefused (Or.inr ⟨invocation, hwords, h⟩))
      fun h => hfinds ⟨invocation, hwords, h⟩

/-- Only what is refused ends with code 2. -/
theorem code_eq_two_iff (hsink : host.sink = .working) :
    (run host words).status.code = 2 ↔ Refused host words := by
  constructor
  · intro hcode
    by_contra hrefused
    by_cases hfinds : Finds host words
    · rw [run_of_finds hsink hfinds] at hcode
      cases hcode
    · rw [run_of_neither hsink hrefused hfinds] at hcode
      cases hcode
  · intro hrefused
    rw [(run_of_refused hsink hrefused).1]
    rfl

/-- Only what finds something ends with code 1. -/
theorem code_eq_one_iff (hsink : host.sink = .working) :
    (run host words).status.code = 1 ↔ Finds host words := by
  constructor
  · intro hcode
    by_contra hfinds
    by_cases hrefused : Refused host words
    · rw [(run_of_refused hsink hrefused).1] at hcode
      cases hcode
    · rw [run_of_neither hsink hrefused hfinds] at hcode
      cases hcode
  · intro hfinds
    rw [run_of_finds hsink hfinds]
    rfl

/-- The log and its setting decide about the second output only. -/
theorem run_log_agrees (hsink : host.sink = .working) (words : List String)
    (setting : Option String) (log : Option String → Bool → List Log.Event → Text) :
    (run { host with logSetting := setting, log := log } words).Agrees (run host words) := by
  rcases words_cases words with ⟨fault, hfault⟩ | ⟨invocation, hwords⟩
  · rw [run_of_fault hfault, run_of_fault hfault]
    exact ⟨rfl, rfl⟩
  · rw [run_of_invocation hsink hwords, run_of_invocation (by exact hsink) hwords]
    exact runInvocation_agrees host invocation setting log invocation.verbose

/-- A detailed log is a switch that can be put at the border of any two units. -/
theorem ofWords_insert_verbose (command : String) {front : List String} (behind : List String)
    {items : List Item} (hfront : readItems front = .ok items) :
    Invocation.ofWords (command :: (front ++ verboseWord :: behind)) =
      (Invocation.ofWords (command :: (front ++ behind))).map ({ · with verbose := true }) := by
  obtain ⟨rfl, hitems⟩ := words_of_readItems hfront
  rw [Invocation.ofWords, Invocation.ofWords, readItems_flatMap_append hitems,
    readItems_flatMap_append hitems,
    readItems_unit (show Meaning.ofWord verboseWord = .unit .verbose by decide)]
  cases readItems behind with
  | error fault => rfl
  | ok others =>
    have hadd : Invocation.ofItems command (items ++ .verbose :: others) =
        { Invocation.ofItems command (items ++ others) with verbose := true } := by
      rw [Invocation.ofItems_eq, Invocation.ofItems_eq]
      simp [Item.last?, List.filterMap_cons, Item.scheme?, Item.classPrefix?, Item.element?,
        Item.configPath?, Item.operand?]
    exact congrArg Except.ok hadd

/-- The switch for a detailed log decides about the second output only. -/
theorem run_verbose_agrees (hsink : host.sink = .working) (command : String)
    {front behind : List String} {items : List Item} (hfront : readItems front = .ok items) :
    (run host (command :: (front ++ verboseWord :: behind))).Agrees
      (run host (command :: (front ++ behind))) := by
  have hinsert := ofWords_insert_verbose command behind hfront
  rcases words_cases (command :: (front ++ behind)) with ⟨fault, hfault⟩ | ⟨invocation, hwords⟩
  · rw [hfault] at hinsert
    rw [run_of_fault hfault, run_of_fault hinsert]
    exact ⟨rfl, rfl⟩
  · rw [hwords] at hinsert
    rw [run_of_invocation hsink hwords, run_of_invocation hsink hinsert]
    exact runInvocation_agrees host invocation host.logSetting host.log true

/-- A check that reports what it finds as JSON breaks off where its output is refused, even when
only because nobody reads it. -/
theorem code_of_refused_output {fault : StreamFault} (hsink : host.sink = .refusing fault)
    {invocation : Invocation} (hwords : Invocation.ofWords words = .ok invocation)
    (hfinds : invocation.Finds host) (hjson : invocation.json = true) :
    (run host words).status.code = 101 := by
  obtain ⟨config, file, hwarnings, hagrees⟩ := runInvocation_of_finds hfinds
  obtain ⟨line, hline, -⟩ := (stdout_perform_check invocation.json config file hwarnings).1 hjson
  have hout : (runInvocation host invocation).stdout ≠ [] := by
    rw [hagrees.2, hline]
    exact List.append_ne_nil_of_right_ne_nil _ (List.cons_ne_nil _ _)
  have hinsists : invocation.insists = true := by
    rw [Invocation.insists, hfinds.1, hjson]
    rfl
  rw [run, hwords]
  dsimp only
  rw [hsink, Outcome.deliver, if_neg hout, hinsists]
  rfl

end Run

/-- How a run ends. The code is 2 exactly for what is refused, and then the first output stays
empty; a complaint about settings that are not in order is all that the second output shows,
whatever the text. The code is 1 exactly for a check that finds something, which writes a single
line as JSON and nothing otherwise. In every other case the code is 0. Neither the log and its
setting nor the switch for detail change the code or the first output. -/
theorem exit_code_contract {host : Host} (hsink : host.sink = .working) (words : List String) :
    ((run host words).status.code = 2 ↔ Refused host words) ∧
      (Refused host words → (run host words).stdout = []) ∧
      (∀ invocation, Invocation.ofWords words = .ok invocation →
        invocation.command ∈ textCommands → BadSettings host invocation →
        ∃ path complaint, invocation.configPath = some path ∧ Complaint host path complaint ∧
          (run host words).stderr = complaint ++ ['\n']) ∧
      ((run host words).status.code = 1 ↔ Finds host words) ∧
      (∀ invocation, Invocation.ofWords words = .ok invocation → invocation.Finds host →
        (invocation.json = true →
          ∃ line, (run host words).stdout = line ++ ['\n'] ∧ '\n' ∉ line) ∧
        (invocation.json = false → (run host words).stdout = [])) ∧
      (¬ Refused host words → ¬ Finds host words → (run host words).status.code = 0) ∧
      (∀ setting log,
        (run { host with logSetting := setting, log := log } words).Agrees (run host words)) ∧
      ∀ command front behind items, words = command :: (front ++ behind) →
        readItems front = .ok items →
        (run host (command :: (front ++ verboseWord :: behind))).Agrees (run host words) := by
  refine ⟨code_eq_two_iff hsink, fun h => (run_of_refused hsink h).2, ?_, code_eq_one_iff hsink, ?_,
    ?_, run_log_agrees hsink words, ?_⟩
  · intro invocation hwords hcommand hbad
    obtain ⟨task, htask⟩ := mem_textCommands_iff.mp hcommand
    obtain ⟨failure, hfail⟩ := badSettings_iff.mp hbad
    obtain ⟨path, hpath, hcomplaint⟩ := complaint_of_fail hfail
    refine ⟨path, failure.message, hpath, hcomplaint, ?_⟩
    rw [run_of_invocation hsink hwords, runInvocation_of_task htask, runTask_of_fail hfail]
    exact List.append_nil _
  · intro invocation hwords hfinds
    obtain ⟨config, file, hwarnings, hagrees⟩ := runInvocation_of_finds hfinds
    rw [run_of_invocation hsink hwords, hagrees.2]
    exact stdout_perform_check invocation.json config file hwarnings
  · intro hrefused hfinds
    rw [run_of_neither hsink hrefused hfinds]
    rfl
  · rintro command front behind items rfl hfront
    exact run_verbose_agrees hsink command hfront

/-- A check of a string that never closes, once with settings that are not in order and no text. -/
theorem exit_code_contract_check :
    let host := { Host.ofTexts [("tint.json", "\x7b\"colour\": 1\x7d")] "\"open" with
      wording := ⟨fun _ => [], fun _ => " at line 1 column 9".toList⟩ }
    host.sink = .working ∧ Finds host ["check", "--json", "-"] ∧
      (run host ["check", "--json", "-"]).status.code = 1 ∧
      (∃ line, (run host ["check", "--json", "-"]).stdout = line ++ ['\n'] ∧ '\n' ∉ line) ∧
      (run host ["check", "--json", "--verbose", "-"]).Agrees
        (run host ["check", "--json", "-"]) ∧
      Refused host ["check", "--config", "tint.json", "missing.cpp"] ∧
      (run host ["check", "--config", "tint.json", "missing.cpp"]).status.code = 2 ∧
      (run host ["check", "--config", "tint.json", "missing.cpp"]).stderr =
        ("Invalid config tint.json: unknown field `colour`, expected one of `scheme`, " ++
          "`class_prefix`, `element` at line 1 column 9\n").toList := by
  intro host
  have hsink : host.sink = .working := rfl
  have hwarnings : Diagnostic.ofTokens (Scheme.standard.tokens "\"open".toList) ≠ [] := by
    decide +kernel
  have hwords : Invocation.ofWords ["check", "--json", "-"] =
      .ok ⟨"check", .none, none, true, false, ["-"]⟩ := by
    decide +kernel
  have hfinds : Invocation.Finds host ⟨"check", .none, none, true, false, ["-"]⟩ :=
    ⟨rfl, _, _, .standard rfl, ⟨"-", rfl, holds_toUTF8 "\"open"⟩, hwarnings⟩
  have hother : Invocation.ofWords ["check", "--config", "tint.json", "missing.cpp"] =
      .ok ⟨"check", .none, some "tint.json", false, false, ["missing.cpp"]⟩ := by
    decide +kernel
  have hfault : Config.read "\x7b\"colour\": 1\x7d".toList =
      .error (.unknownField "colour".toList) := by
    decide +kernel
  have htext : Holds (host.fileBytes "tint.json") "\x7b\"colour\": 1\x7d".toList :=
    holds_toUTF8 _
  have hbad : BadSettings host ⟨"check", .none, some "tint.json", false, false, ["missing.cpp"]⟩ :=
    badSettings_iff.mpr ⟨_, .refused rfl htext hfault⟩
  have hrefused : Refused host ["check", "--config", "tint.json", "missing.cpp"] :=
    Or.inr ⟨_, hother, .settings (by decide) hbad⟩
  obtain ⟨-, -, -, hone, hout, -, -, hverbose⟩ :=
    exit_code_contract hsink ["check", "--json", "-"]
  obtain ⟨htwo, -, hreport, -⟩ :=
    exit_code_contract hsink ["check", "--config", "tint.json", "missing.cpp"]
  obtain ⟨path, complaint, hpath, hcomplaint, hstderr⟩ := hreport _ hother (by decide) hbad
  obtain rfl := Option.some.inj hpath
  have hcomplains : complaint ++ ['\n'] =
      ("Invalid config tint.json: unknown field `colour`, expected one of `scheme`, " ++
        "`class_prefix`, `element` at line 1 column 9\n").toList := by
    rw [hcomplaint.unique (.noSettings htext hfault rfl)]
    decide +kernel
  exact ⟨hsink, ⟨_, hwords, hfinds⟩, hone.mpr ⟨_, hwords, hfinds⟩,
    (hout _ hwords hfinds).1 rfl, hverbose "check" ["--json"] ["-"] [.json] rfl (by decide +kernel),
    hrefused, htwo.mpr hrefused, hstderr.trans hcomplains⟩

end CodeTint.Command
