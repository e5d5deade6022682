import CodeTint.Text.Basic

/-!
# Files and streams

Reading a file or a stream answers with its bytes or with the reason why there are none, and only
bytes that are the UTF-8 form of a text can be read as one. What the operating system refuses it
describes in words and with a code.
-/

namespace CodeTint.Command

/-- Why a file or a stream fails. -/
inductive StreamFault where
  /-- The operating system refuses. -/
  | system (description : String) (code : Nat)
  /-- The bytes are not the UTF-8 form of a text. -/
  | notText
  /-- Any other reason, in words. -/
  | other (reason : String)
deriving DecidableEq, Repr

namespace StreamFault

/-- Nothing has the path that is asked for. -/
def missing : StreamFault :=
  .system "No such file or directory" 2

/-- The reason in words. -/
def message : StreamFault → Text
  | system description code =>
    description.toList ++ " (os error ".toList ++ Text.digits code ++ [')']
  | notText => "stream did not contain valid UTF-8".toList
  | other reason => reason.toList

/-- What the operating system refuses is told by its words and its code. -/
@[simp]
theorem message_system (description : String) (code : Nat) : (system description code).message =
    description.toList ++ " (os error ".toList ++ Text.digits code ++ [')'] :=
  rfl

/-- Bytes that are no text are called so. -/
@[simp]
theorem message_notText : notText.message = "stream did not contain valid UTF-8".toList :=
  rfl

/-- A reason in words is told as it is. -/
@[simp]
theorem message_other (reason : String) : (other reason).message = reason.toList :=
  rfl

/-- Nobody is left to read what is written. -/
def isBrokenPipe : StreamFault → Bool
  | system _ code => code = 32
  | _ => false

end StreamFault

/-- The text that bytes are the UTF-8 form of. -/
def decode (bytes : ByteArray) : Except StreamFault Text :=
  match String.fromUTF8? bytes with
  | some text => .ok text.toList
  | none => .error .notText

end CodeTint.Command
