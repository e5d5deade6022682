import CodeTint.Command.Run

/-!
# The program

The program asks its surroundings for the files that its arguments name, lets the run decide, and
writes what the run leaves behind.
-/

namespace CodeTint.Command

/-- The code of an error, which some calls report below zero. -/
def errorCode (code : UInt32) : Nat :=
  min code.toNat (0 - code).toNat

/-- The words of the operating system for the codes that files and streams fail with. -/
def systemWords : List (Nat × String) :=
  [(1, "Operation not permitted"), (2, "No such file or directory"),
    (4, "Interrupted system call"), (5, "Input/output error"), (6, "No such device or address"),
    (9, "Bad file descriptor"), (11, "Resource temporarily unavailable"),
    (12, "Cannot allocate memory"), (13, "Permission denied"), (16, "Device or resource busy"),
    (19, "No such device"), (20, "Not a directory"), (21, "Is a directory"),
    (22, "Invalid argument"), (23, "Too many open files in system"), (24, "Too many open files"),
    (26, "Text file busy"), (27, "File too large"), (28, "No space left on device"),
    (29, "Illegal seek"), (30, "Read-only file system"), (32, "Broken pipe"),
    (36, "File name too long"), (40, "Too many levels of symbolic links"),
    (75, "Value too large for defined data type"), (110, "Connection timed out"),
    (116, "Stale file handle"), (122, "Disk quota exceeded")]

/-- The fault with a code. What calls say of a code that is not listed stands in for its words. -/
def StreamFault.ofCode (code : UInt32) (details : String) : StreamFault :=
  .system ((systemWords.lookup (errorCode code)).getD details) (errorCode code)

/-- The reason of an error. -/
def StreamFault.ofError : IO.Error → StreamFault
  | .alreadyExists _ code details
  | .otherError code details
  | .resourceBusy code details
  | .resourceVanished code details
  | .unsupportedOperation code details
  | .hardwareFault code details
  | .unsatisfiedConstraints code details
  | .illegalOperation code details
  | .protocolError code details
  | .timeExpired code details
  | .interrupted _ code details
  | .noFileOrDirectory _ code details
  | .invalidArgument _ code details
  | .permissionDenied _ code details
  | .resourceExhausted _ code details
  | .inappropriateType _ code details
  | .noSuchThing _ code details => .ofCode code details
  | .unexpectedEof => .other "unexpected end of file"
  | .userError reason => .other reason

/-- The bytes that an action reads, or the reason why there are none. -/
def answer (action : IO ByteArray) : IO (Except StreamFault ByteArray) := do
  match ← action.toBaseIO with
  | .ok bytes => return .ok bytes
  | .error error => return .error (.ofError error)

/-- The paths that a run may ask for. -/
def Invocation.paths (invocation : Invocation) : List String :=
  invocation.configPath.toList ++ invocation.operands.filter (· ≠ "-")

/-- The words of the reader here, which keeps no places. -/
def Wording.withoutPlaces : Wording where
  syntaxError _ := "no JSON document".toList
  place _ := []

/-- What is said when output that must be taken is refused. -/
def refusedWords (fault : StreamFault) : Text :=
  unlines ["failed printing to stdout: ".toList ++ fault.message]

/-- What the surroundings answer to an invocation. -/
def Host.ofInvocation (invocation : Invocation) : IO Host := do
  let files ← invocation.paths.mapM fun (path : String) => do
    return (path, ← answer (IO.FS.readBinFile path))
  let input ←
    if invocation.operands = ["-"] then
      answer do (← IO.getStdin).readBinToEnd
    else pure (.ok .empty)
  return {
    fileBytes := fun path => (files.lookup path).getD (.error .missing)
    inputBytes := input
    wording := .withoutPlaces
    logSetting := ← IO.getEnv "CPPHL_LOG"
    log := Log.plain
    sink := .working
    lastWords := refusedWords }

/-- Write an outcome, and answer how the first output took it. -/
def Outcome.write (outcome : Outcome) : IO Sink := do
  let output ← IO.getStdout
  let written ← (do output.putStr (String.ofList outcome.stdout); output.flush : IO Unit).toBaseIO
  match written with
  | .ok () => return .working
  | .error error => return .refusing (.ofError error)

end CodeTint.Command

open CodeTint.Command in
/-- Run the program on its arguments and answer its exit code. -/
def main (words : List String) : IO UInt32 := do
  let invocation := (Invocation.ofWords words).toOption.getD (.ofCommand "")
  let host ← Host.ofInvocation invocation
  let planned := run host words
  let sink ← planned.write
  let outcome := planned.deliver invocation.insists host.lastWords sink
  (← IO.getStderr).putStr (String.ofList outcome.stderr)
  return UInt32.ofNat outcome.status.code
