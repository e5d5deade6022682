import CodeTint.Config

/-!
# Arguments

The first argument names the command. The others are read from left to right as units: an option
with its value, a switch, or an operand. An operand is the single dash or a word that does not
start with a dash; the value of an option is whatever word follows it. Units may come in any order
and any number, and a later one replaces an earlier one of the same sort.
-/

namespace CodeTint.Command

/-- An option that takes the following word as its value. -/
inductive ValueOption where
  /-- The scheme. -/
  | scheme
  /-- The words in front of class names. -/
  | classPrefix
  /-- The wrapping element. -/
  | element
  /-- The path of a file with settings. -/
  | configPath
deriving DecidableEq, Repr

namespace ValueOption

/-- All options that take a value. -/
def all : List ValueOption :=
  [scheme, classPrefix, element, configPath]

/-- The word for an option. -/
def word : ValueOption → String
  | scheme => "--scheme"
  | classPrefix => "--prefix"
  | element => "--element"
  | configPath => "--config"

end ValueOption

/-- The word that asks for output as JSON. -/
def jsonWord : String :=
  "--json"

/-- The word that asks for a detailed log. -/
def verboseWord : String :=
  "--verbose"

/-- One unit of the arguments behind the command. -/
inductive Item where
  /-- A scheme was chosen. -/
  | scheme (value : Scheme)
  /-- Words in front of class names were chosen. -/
  | classPrefix (value : String)
  /-- An element was chosen. -/
  | element (value : String)
  /-- A file with settings was named. -/
  | configPath (value : String)
  /-- Output is wanted as JSON. -/
  | json
  /-- A detailed log is wanted. -/
  | verbose
  /-- A word without a dash in front, or the single dash. -/
  | operand (value : String)
deriving DecidableEq, Repr

/-- The words that a unit is written with. -/
def Item.words : Item → List String
  | scheme value => [ValueOption.scheme.word, value.name]
  | classPrefix value => [ValueOption.classPrefix.word, value]
  | element value => [ValueOption.element.word, value]
  | configPath value => [ValueOption.configPath.word, value]
  | json => [jsonWord]
  | verbose => [verboseWord]
  | operand value => [value]

/-- Why arguments are refused. -/
inductive ArgumentFault where
  /-- There is no command. -/
  | noCommand
  /-- A word starts with a dash and is no option. -/
  | unknownOption (word : String)
  /-- No word follows an option that takes a value. -/
  | missingValue (option : ValueOption)
  /-- The value of the scheme option names no scheme. -/
  | unknownScheme (word : String)
deriving DecidableEq, Repr

/-- The summary of the command line. -/
def usage : String :=
  "Usage: cpphl <html|fragments|check|keywords> [--scheme literal|split|string-only] " ++
    "[--prefix <class-prefix>] [--element <tag>] [--config <file.json>] [--json] [--verbose] " ++
    "[<file>|-]"

/-- The message of a fault. -/
def ArgumentFault.message : ArgumentFault → String
  | noCommand => usage
  | unknownOption word => "Unknown option: " ++ word
  | missingValue option => "Missing value for " ++ option.word
  | unknownScheme word => Scheme.unknownMessage word

/-- The word stands for itself and for no option. -/
def isOperand (word : String) : Bool :=
  word = "-" || word.toList.head? ≠ some '-'

/-- What a word says where a unit starts. -/
inductive Meaning where
  /-- An option whose value follows. -/
  | valueOption (chosen : ValueOption)
  /-- A whole unit. -/
  | unit (item : Item)
  /-- Nothing that is known. -/
  | unknown
deriving DecidableEq, Repr

/-- The meaning of a word where a unit starts. -/
def Meaning.ofWord (word : String) : Meaning :=
  match ValueOption.all.find? fun candidate => candidate.word == word with
  | some chosen => .valueOption chosen
  | none =>
    if word = jsonWord then .unit .json
    else if word = verboseWord then .unit .verbose
    else if isOperand word then .unit (.operand word)
    else .unknown

/-- The unit of an option and its value. -/
def ValueOption.item (option : ValueOption) (value : String) : Except ArgumentFault Item :=
  match option with
  | scheme =>
    match Scheme.ofName? value with
    | some found => .ok (.scheme found)
    | none => .error (.unknownScheme value)
  | classPrefix => .ok (.classPrefix value)
  | element => .ok (.element value)
  | configPath => .ok (.configPath value)

/-- The units of the words behind the command. -/
def readItems : List String → Except ArgumentFault (List Item)
  | [] => .ok []
  | word :: rest =>
    match Meaning.ofWord word with
    | .valueOption chosen =>
      match rest with
      | [] => .error (.missingValue chosen)
      | value :: rest => do
        let item ← chosen.item value
        let items ← readItems rest
        return item :: items
    | .unit item => do
      let items ← readItems rest
      return item :: items
    | .unknown => .error (.unknownOption word)

/-- What the arguments ask for. -/
structure Invocation where
  /-- The name of the command, whether it exists or not. -/
  command : String
  /-- Settings chosen on the command line. -/
  choices : Config.Choices
  /-- The file with further settings. -/
  configPath : Option String
  /-- Output is wanted as JSON. -/
  json : Bool
  /-- A detailed log is wanted. -/
  verbose : Bool
  /-- The operands in their order. -/
  operands : List String
deriving DecidableEq, Repr

namespace Invocation

/-- A command without further arguments. -/
def ofCommand (command : String) : Invocation :=
  ⟨command, .none, none, false, false, []⟩

/-- One more unit behind those already counted. -/
def add (invocation : Invocation) : Item → Invocation
  | .scheme value =>
    { invocation with choices := { invocation.choices with scheme := some value } }
  | .classPrefix value =>
    { invocation with choices := { invocation.choices with classPrefix := some value } }
  | .element value =>
    { invocation with choices := { invocation.choices with element := some value } }
  | .configPath value => { invocation with configPath := some value }
  | .json => { invocation with json := true }
  | .verbose => { invocation with verbose := true }
  | .operand value => { invocation with operands := invocation.operands ++ [value] }

/-- A command with all its units. -/
def ofItems (command : String) (items : List Item) : Invocation :=
  items.foldl add (ofCommand command)

/-- What a list of words asks for. -/
def ofWords : List String → Except ArgumentFault Invocation
  | [] => .error .noCommand
  | command :: rest => (readItems rest).map (ofItems command)

end Invocation

end CodeTint.Command
