import CodeTint.Command.Arguments
import CodeTint.Command.Stream

/-!
# Outcomes

A run ends with an exit status and the texts written to both outputs. A run that fails says why in
one message on the second output and writes nothing to the first. The first output may refuse what
is written to it. Then a run fails if there was anything to write, unless nobody is left to read it;
and a run that insists on its output breaks off in either case. The second output takes everything.
-/

namespace CodeTint.Command

/-- How a run ends. -/
inductive Status where
  /-- All went well. -/
  | success
  /-- The text was found wanting. -/
  | findings
  /-- The run failed. -/
  | failure
  /-- The run broke off while it was writing. -/
  | aborted
deriving DecidableEq, Repr

/-- The exit code of a status. -/
def Status.code : Status → Nat
  | success => 0
  | findings => 1
  | failure => 2
  | aborted => 101

/-- Why a run fails. -/
inductive Failure where
  /-- The arguments are refused. -/
  | arguments (fault : ArgumentFault)
  /-- No command has that name. -/
  | unknownCommand (name : String)
  /-- Operands were given where none are taken. -/
  | unexpectedOperand
  /-- Not exactly one operand was given. -/
  | missingFile
  /-- The input stream cannot be read. -/
  | unreadableInput (fault : StreamFault)
  /-- A file cannot be read. -/
  | unreadableFile (path : String) (fault : StreamFault)
  /-- A file holds no settings, for a reason in words. -/
  | badConfig (path : String) (reason : Text)
  /-- The first output cannot be written to. -/
  | unwritable (fault : StreamFault)
deriving DecidableEq, Repr

/-- The message of a failure. -/
def Failure.message : Failure → Text
  | arguments fault => fault.message.toList
  | unknownCommand name => "Unknown command: ".toList ++ name.toList ++ ['\n'] ++ usage.toList
  | unexpectedOperand => "keywords takes no arguments".toList
  | missingFile => "Missing <file>".toList
  | unreadableInput fault => "Read failed: ".toList ++ fault.message
  | unreadableFile path fault =>
    "Read failed: ".toList ++ path.toList ++ ": ".toList ++ fault.message
  | badConfig path reason => "Invalid config ".toList ++ path.toList ++ ": ".toList ++ reason
  | unwritable fault => "stdout error: ".toList ++ fault.message

/-- A file that cannot be read is named with the reason. -/
@[simp]
theorem Failure.message_unreadableFile (path : String) (fault : StreamFault) :
    (unreadableFile path fault).message =
      "Read failed: ".toList ++ path.toList ++ ": ".toList ++ fault.message :=
  rfl

/-- A file without settings is named with the reason. -/
@[simp]
theorem Failure.message_badConfig (path : String) (reason : Text) :
    (badConfig path reason).message =
      "Invalid config ".toList ++ path.toList ++ ": ".toList ++ reason :=
  rfl

/-- What a run leaves behind. -/
structure Outcome where
  /-- How it ended. -/
  status : Status
  /-- The text on the first output. -/
  stdout : Text
  /-- The text on the second output. -/
  stderr : Text
deriving DecidableEq, Repr

/-- Lines one below the other, each with its newline. -/
def unlines (lines : List Text) : Text :=
  lines.flatMap (· ++ ['\n'])

/-- The outcome of a failure behind what the log has written. -/
def Outcome.failed (log : Text) (failure : Failure) : Outcome :=
  ⟨.failure, [], log ++ unlines [failure.message]⟩

/-- How the first output takes what is written to it. -/
inductive Sink where
  /-- Everything is taken. -/
  | working
  /-- Nothing is taken. -/
  | refusing (fault : StreamFault)
deriving DecidableEq, Repr

/-- What is left of an outcome once its first output has been written. A run that insists on its
output breaks off with its last words where the output is refused. -/
def Outcome.deliver (outcome : Outcome) (insists : Bool) (lastWords : StreamFault → Text) :
    Sink → Outcome
  | .working => outcome
  | .refusing fault =>
    if outcome.stdout = [] then outcome
    else if insists then ⟨.aborted, [], outcome.stderr ++ lastWords fault⟩
    else if fault.isBrokenPipe then { outcome with stdout := [] }
    else ⟨.failure, [], outcome.stderr ++ unlines [(Failure.unwritable fault).message]⟩

end CodeTint.Command
