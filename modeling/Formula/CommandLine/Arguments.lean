import Formula.Text.Order
import Formula.Text.Quoted
import Formula.Text.Similar

namespace Formula.CommandLine

/-- An option: two dashes and a name, or one dash and a letter. Some take a value. -/
structure OptionSpec where
  /-- The name by which the command asks for the option. -/
  key : String
  long : List String
  short : List Char
  takesValue : Bool
  deriving DecidableEq

/-- What a command accepts. -/
structure CommandSpec where
  /-- The words that call the command. -/
  path : String
  /-- What the usage line says behind them. -/
  usage : String
  options : List OptionSpec
  /-- Whether options may stand behind positional arguments. -/
  interspersed : Bool

/-- Why arguments are not accepted. -/
inductive UsageError where
  | missingValue (option : String)
  | unexpectedValue (option : String)
  | noSuchOption (option : String) (similar : List String)
  | missingArgument (name : String)
  | extraArguments (arguments : List String)
  | noSuchCommand (name : String)
  | missingCommand
  | invalidValue (option : Option String) (reason : String)
  deriving DecidableEq

namespace UsageError

def similarText : List String → String
  | [] => ""
  | [only] => s!" Did you mean {only}?"
  | several =>
    let names := ", ".intercalate (Text.sortedNames several)
    s!" (Possible options: {names})"

def message : UsageError → String
  | missingValue option => s!"Option '{option}' requires an argument."
  | unexpectedValue option => s!"Option '{option}' does not take a value."
  | noSuchOption option similar => s!"No such option: {option}" ++ similarText similar
  | missingArgument name => s!"Missing argument '{name}'."
  | extraArguments arguments =>
    let noun := if arguments.length = 1 then "argument" else "arguments"
    let list := " ".intercalate arguments
    s!"Got unexpected extra {noun} ({list})"
  | noSuchCommand name => s!"No such command {Text.quoted name}."
  | missingCommand => "Missing command."
  | invalidValue none reason => s!"Invalid value: {reason}"
  | invalidValue (some option) reason => s!"Invalid value for {option}: {reason}"

/-- Whether the text of the error has the usage line in front. -/
def showsUsage : UsageError → Bool
  | missingValue _ | unexpectedValue _ => false
  | _ => true

/-- The whole text of an error of a command. -/
def render (error : UsageError) (command : CommandSpec) : String :=
  let usage :=
    s!"Usage: {command.path} {command.usage}\nTry '{command.path} --help' for help.\n\n"
  (if error.showsUsage then usage else "") ++ s!"Error: {error.message}\n"

end UsageError

/-- Accepted arguments: the options with their values in the order given, and what is left. -/
structure Arguments where
  options : List (String × String)
  positional : List String

namespace Arguments

def has (arguments : Arguments) (key : String) : Bool :=
  arguments.options.any (·.1 == key)

/-- All values of an option. -/
def values (arguments : Arguments) (key : String) : List String :=
  (arguments.options.filter (·.1 == key)).map (·.2)

end Arguments

namespace CommandSpec

def findLong? (command : CommandSpec) (name : String) : Option OptionSpec :=
  command.options.find? (·.long.contains name)

def findShort? (command : CommandSpec) (letter : Char) : Option OptionSpec :=
  command.options.find? (·.short.contains letter)

/-- What an argument with dashes says: options, and perhaps one whose value is still to come. -/
structure Found where
  options : List (String × String)
  awaiting : Option (OptionSpec × String)

/-- Reads letters behind one dash. The letters behind one that takes a value are that value. -/
def readLetters (command : CommandSpec) : List Char → Except UsageError Found
  | [] => .ok ⟨[], none⟩
  | letter :: rest =>
    match command.findShort? letter with
    | none => .error (.noSuchOption (String.ofList ['-', letter]) [])
    | some option =>
      if option.takesValue then
        if rest.isEmpty then .ok ⟨[], some (option, String.ofList ['-', letter])⟩
        else .ok ⟨[(option.key, String.ofList rest)], none⟩
      else do
        let found ← readLetters command rest
        return ⟨(option.key, "") :: found.options, found.awaiting⟩

/-- Reads one argument that begins with a dash. -/
def readDashed (command : CommandSpec) (argument : List Char) : Except UsageError Found :=
  let name := String.ofList (argument.takeWhile (· != '='))
  let value : Option String :=
    if argument.contains '=' then some (String.ofList ((argument.dropWhile (· != '=')).drop 1))
    else none
  match command.findLong? name, value with
  | some option, some value =>
    if option.takesValue then .ok ⟨[(option.key, value)], none⟩
    else .error (.unexpectedValue name)
  | some option, none =>
    if option.takesValue then .ok ⟨[], some (option, name)⟩
    else .ok ⟨[(option.key, "")], none⟩
  | none, _ =>
    if argument.take 2 == ['-', '-'] then
      .error (.noSuchOption name (Text.closeMatches name (command.options.flatMap (·.long))))
    else readLetters command (argument.drop 1)

/-- Divides arguments into options and positional ones. `awaiting` is an option whose value comes
next. -/
def readFrom (command : CommandSpec) (awaiting : Option (OptionSpec × String)) :
    List String → Except UsageError Arguments
  | [] =>
    match awaiting with
    | some (_, name) => .error (.missingValue name)
    | none => .ok ⟨[], []⟩
  | argument :: rest =>
    match awaiting with
    | some (option, _) => do
      let arguments ← readFrom command none rest
      return { arguments with options := (option.key, argument) :: arguments.options }
    | none =>
      if argument == "--" then .ok ⟨[], rest⟩
      else if argument.length > 1 && argument.toList.head? == some '-' then do
        let found ← readDashed command argument.toList
        let arguments ← readFrom command found.awaiting rest
        return { arguments with options := found.options ++ arguments.options }
      else if command.interspersed then do
        let arguments ← readFrom command none rest
        return { arguments with positional := argument :: arguments.positional }
      else .ok ⟨[], argument :: rest⟩

def read (command : CommandSpec) (arguments : List String) : Except UsageError Arguments :=
  command.readFrom none arguments

end CommandSpec

end Formula.CommandLine
