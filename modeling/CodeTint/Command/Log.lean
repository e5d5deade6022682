import CodeTint.Command.Outcome
import CodeTint.Text.Visible
import CodeTint.Trace

/-!
# The log

A run reports the settings in force and the steps of its work to a log, which writes to the second
output. The plain log takes the name of a threshold as its setting. Its lines are the level of what
happened, the run it belongs to when runs are followed, and what happened. Runs are followed only
where everything is, so at lower thresholds the lines stand without their run.
-/

namespace CodeTint.Command

/-- How much is written to the log. -/
inductive Threshold where
  /-- Nothing. -/
  | off
  /-- Errors. -/
  | error
  /-- Warnings as well. -/
  | warn
  /-- Remarks on progress as well. -/
  | info
  /-- Remarks on unusual places as well. -/
  | debug
  /-- Every step. -/
  | trace
deriving DecidableEq, Repr

namespace Threshold

/-- All thresholds from the least to the most. -/
def all : List Threshold :=
  [off, error, warn, info, debug, trace]

/-- The name by which a threshold is chosen. -/
def name : Threshold → String
  | off => "off"
  | error => "error"
  | warn => "warn"
  | info => "info"
  | debug => "debug"
  | trace => "trace"

/-- The threshold with a name. -/
def ofName? (word : String) : Option Threshold :=
  all.find? fun threshold => threshold.name == word

/-- The threshold under a setting. Where the setting names none, the switch for detail decides. -/
def ofSetting (setting : Option String) (detailed : Bool) : Threshold :=
  (setting.bind ofName?).getD (if detailed then debug else warn)

/-- Unusual places are written. -/
def showsDebug : Threshold → Bool
  | debug | trace => true
  | _ => false

/-- Every step is written. -/
def showsTrace : Threshold → Bool
  | trace => true
  | _ => false

end Threshold

namespace Log

/-- What a run reports to its log. -/
inductive Event where
  /-- The settings in force. -/
  | configured (config : Config)
  /-- A step of the work on a text. -/
  | traced (event : Trace.Event)

/-- The scheme under the name that the log gives it. -/
def schemeName : Scheme → String
  | .literal => "Literal"
  | .split => "Split"
  | .stringOnly => "StringOnly"

/-- The settings as the log shows them. -/
def showConfig (config : Config) : Text :=
  "HighlightConfig \x7b scheme: ".toList ++ (schemeName config.scheme).toList ++
    ", class_prefix: ".toList ++ Text.visible config.classPrefix.toList ++
    ", element: ".toList ++ Text.visible config.element.toList ++ " \x7d".toList

/-- The label of a run on a text of some bytes under a scheme. -/
def runLabel (length : Nat) (scheme : Scheme) : Text :=
  "highlight\x7blen=".toList ++ Text.digits length ++ " scheme=".toList ++ scheme.name.toList ++
    "\x7d: ".toList

/-- The label of the run that an event opens. -/
def label? : Event → Option Text
  | .traced (.opened length scheme) => some (runLabel length scheme)
  | _ => none

/-- What a step of the work says, with its level, when the threshold shows it. -/
def tracedLine? (threshold : Threshold) (label : Text) : Trace.Event → Option Text
  | .opened _ _ => none
  | .matched rule length =>
    if threshold.showsTrace then
      some <| "TRACE ".toList ++ label ++ "matched rule=".toList ++ Text.visible rule.name.toList ++
        " len=".toList ++ Text.digits length
    else none
  | .unterminated kind start stop =>
    if threshold.showsDebug then
      some <| "DEBUG ".toList ++ label ++ "unterminated construct kind=".toList ++
        kind.name.toList ++ " start=".toList ++ Text.digits start ++ " end=".toList ++
        Text.digits stop
    else none
  | .scanned fragments classified =>
    if threshold.showsTrace then
      some <| "TRACE ".toList ++ label ++ "scanned fragments=".toList ++ Text.digits fragments ++
        " classified=".toList ++ Text.digits classified
    else none

/-- What an event says. The settings belong to no run. -/
def line? (threshold : Threshold) (label : Text) : Event → Option Text
  | .configured config =>
    if threshold.showsDebug then
      some <| "DEBUG configuration config=".toList ++ showConfig config
    else none
  | .traced event => tracedLine? threshold label event

/-- The lines about some events. -/
def lines (threshold : Threshold) (events : List Event) : List Text :=
  let label := if threshold.showsTrace then (events.findSome? label?).getD [] else []
  events.filterMap (line? threshold label)

/-- What the plain log writes about some events. -/
def plain (setting : Option String) (detailed : Bool) (events : List Event) : Text :=
  unlines (lines (.ofSetting setting detailed) events)

end Log

end CodeTint.Command
