import CodeTint.Command.Log
import CodeTint.Config.Reader
import CodeTint.Json.Object
import CodeTint.Source.Report

/-!
# Commands

Three commands work on a text: one writes its markup, one lists its fragments, one reports
constructs that never close. They load the settings first, then the text, and the first of the two
that cannot be loaded ends the run. A fourth command lists the reserved words.
-/

namespace CodeTint.Command

/-- How the reader of settings words what it finds wrong with a text. -/
structure Wording where
  /-- What keeps a text from being JSON. -/
  syntaxError : Text → Text
  /-- The place in a text at which it is refused, behind what is wrong there. -/
  place : Text → Text

/-- What is said about a text that holds no settings. -/
def Wording.reason (wording : Wording) (text : Text) (fault : Config.Fault) : Text :=
  fault.message?.getD (wording.syntaxError text) ++ wording.place text

/-- What a run finds in its surroundings. -/
structure Host where
  /-- The bytes of a file. -/
  fileBytes : String → Except StreamFault ByteArray
  /-- The bytes of the input stream. -/
  inputBytes : Except StreamFault ByteArray
  /-- The words of the reader of settings. -/
  wording : Wording
  /-- The setting of the log. -/
  logSetting : Option String
  /-- What the log writes about some events, under its setting and the switch for detail. -/
  log : Option String → Bool → List Log.Event → Text
  /-- How the first output takes what is written. -/
  sink : Sink
  /-- The last words of a run that breaks off because its output is refused. -/
  lastWords : StreamFault → Text

/-- Work on a text. -/
inductive Task where
  /-- Write the markup. -/
  | html
  /-- List the fragments. -/
  | fragments
  /-- Report what never closes. -/
  | check
deriving DecidableEq, Repr

/-- The task with a name. -/
def Task.ofName? (word : String) : Option Task :=
  match word with
  | "html" => some html
  | "fragments" => some fragments
  | "check" => some check
  | _ => none

/-- The settings in a file. -/
def readConfigFile (host : Host) (path : String) : Except Failure Config :=
  match host.fileBytes path >>= decode with
  | .error fault => .error (.unreadableFile path fault)
  | .ok text =>
    (Config.read text).mapError fun fault => .badConfig path (host.wording.reason text fault)

/-- The settings under the choices made in the arguments: those of the file, if one is named. -/
def baseConfig (host : Host) (invocation : Invocation) : Except Failure Config :=
  match invocation.configPath with
  | none => .ok .standard
  | some path => readConfigFile host path

/-- The settings in force: every choice made in the arguments wins over the settings below. -/
def loadConfig (host : Host) (invocation : Invocation) : Except Failure Config :=
  (baseConfig host invocation).map (·.override invocation.choices)

/-- The text that the only operand names, the single dash being the input stream. -/
def loadSource (host : Host) (invocation : Invocation) : Except Failure Source.File :=
  match invocation.operands with
  | [path] =>
    if path = "-" then
      match host.inputBytes >>= decode with
      | .error fault => .error (.unreadableInput fault)
      | .ok text => .ok ⟨"<stdin>", text⟩
    else
      match host.fileBytes path >>= decode with
      | .error fault => .error (.unreadableFile path fault)
      | .ok text => .ok ⟨path, text⟩
  | _ => .error .missingFile

/-- A text on one line, its line breaks and tabs shown by letters. -/
def onOneLine (text : Text) : Text :=
  text.flatMap fun c =>
    if c = '\n' then ['\\', 'n']
    else if c = '\r' then ['\\', 'r']
    else if c = '\t' then ['\\', 't']
    else [c]

/-- A fragment on one line: category, bytes and text between tabs. -/
def fragmentLine (fragment : Fragment) : Text :=
  fragment.category.name.toList ++ ['\t'] ++ Text.digits fragment.span.start.toNat ++
    "..".toList ++ Text.digits fragment.span.stop.toNat ++ ['\t'] ++ onOneLine fragment.text

/-- A fragment as JSON. -/
def fragmentJson (fragment : Fragment) : Text :=
  Json.writeObject
    [("category", Json.writeWord fragment.category.name),
      ("end", Text.digits fragment.span.stop.toNat),
      ("start", Text.digits fragment.span.start.toNat),
      ("text", Json.writeString fragment.text)]

/-- A span as JSON. -/
def spanJson (span : Span) : Text :=
  Json.writeObject
    [("end", Text.digits span.stop.toNat), ("start", Text.digits span.start.toNat)]

/-- A diagnostic about a source as JSON. -/
def diagnosticJson (file : Source.File) (diagnostic : Diagnostic) : Text :=
  Json.writeObject
    [("code", (diagnostic.code.map Json.writeWord).getD Json.writeNull),
      ("file", Json.writeWord file.name),
      ("message", Json.writeWord diagnostic.message),
      ("severity", Json.writeWord diagnostic.severity.name),
      ("span", (diagnostic.span.map spanJson).getD Json.writeNull)]

/-- What a task leaves behind, apart from the log. -/
def perform (task : Task) (json : Bool) (config : Config) (file : Source.File) : Outcome :=
  match task with
  | .html => ⟨.success, highlight config file.text, []⟩
  | .fragments =>
    let fragments := (classify config.scheme file.text).fragments
    ⟨.success, unlines (fragments.map (if json then fragmentJson else fragmentLine)), []⟩
  | .check =>
    let diagnostics := (classify config.scheme file.text).diagnostics
    let status := if diagnostics.isEmpty then Status.success else .findings
    if json then ⟨status, unlines (diagnostics.map (diagnosticJson file)), []⟩
    else ⟨status, [], unlines (diagnostics.map (Source.report file))⟩

/-- What happens during a task: only the markup is a run of its own. -/
def events (task : Task) (scheme : Scheme) (text : Text) : List Trace.Event :=
  match task with
  | .html => Trace.ofHighlight scheme text
  | .fragments | .check => Trace.ofTokens (scheme.tokens text)

/-- A task from its arguments to its outcome. -/
def runTask (host : Host) (invocation : Invocation) (task : Task) : Outcome :=
  let log := host.log host.logSetting invocation.verbose
  match loadConfig host invocation with
  | .error failure => .failed [] failure
  | .ok config =>
    match loadSource host invocation with
    | .error failure => .failed (log [.configured config]) failure
    | .ok file =>
      let steps := (events task config.scheme file.text).map Log.Event.traced
      let outcome := perform task invocation.json config file
      { outcome with stderr := log (.configured config :: steps) ++ outcome.stderr }

/-- The reserved words one below the other. -/
def runKeywords (invocation : Invocation) : Outcome :=
  if invocation.operands.isEmpty then
    ⟨.success, unlines (Scan.Word.reserved.map String.toList), []⟩
  else .failed [] .unexpectedOperand

/-- What an invocation leaves behind before its output is delivered. -/
def runInvocation (host : Host) (invocation : Invocation) : Outcome :=
  match Task.ofName? invocation.command with
  | some task => runTask host invocation task
  | none =>
    if invocation.command = "keywords" then runKeywords invocation
    else .failed [] (.unknownCommand invocation.command)

/-- The output must be taken: a check prints its records without asking how that went. -/
def Invocation.insists (invocation : Invocation) : Bool :=
  invocation.command = "check" && invocation.json

/-- A run from its words to its outcome. -/
def run (host : Host) (words : List String) : Outcome :=
  match Invocation.ofWords words with
  | .error fault => .failed [] (.arguments fault)
  | .ok invocation =>
    (runInvocation host invocation).deliver invocation.insists host.lastWords host.sink

end CodeTint.Command
