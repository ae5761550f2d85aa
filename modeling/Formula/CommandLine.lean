import Formula.Calculator
import Formula.CommandLine.Arguments
import Formula.CommandLine.Listing
import Formula.Number.FreeForm
import Formula.Options

namespace Formula.CommandLine

/-- The notes of a run, in order. -/
abbrev Notes := List Note

instance : Journal Notes := ⟨fun note notes => notes ++ [note]⟩

/-- What is found under the path of an option file. -/
inductive FoundFile where
  | missing
  | directory
  | content (text : String)

/-- What a run can see beside its arguments, and the loader of option files. -/
structure World where
  registry : Registry Notes
  environment : String → Option String
  file : String → FoundFile
  load : String → Except DocumentFault Datum

/-- What a run leaves behind. A trouble that no command deals with escapes it. -/
structure Outcome where
  exit : Nat
  stdout : String
  stderr : String
  escaped : Option Trouble

namespace Outcome

def success (stdout : String) (notes : String) : Outcome := ⟨0, stdout, notes, none⟩

def failure (message notes : String) : Outcome :=
  ⟨1, "", notes ++ s!"Error: {message}\n", none⟩

def escape (trouble : Trouble) (notes : String) : Outcome := ⟨1, "", notes, some trouble⟩

/-- All that whoever asks for help gets. -/
def usageLine (command : CommandSpec) : Outcome :=
  .success s!"Usage: {command.path} {command.usage}\n" ""

def usage (command : CommandSpec) (error : UsageError) : Outcome :=
  ⟨2, "", error.render command, none⟩

end Outcome

def helpOption : OptionSpec := ⟨"help", ["--help"], [], false⟩

def flag (name : String) : OptionSpec := ⟨name, ["--" ++ name], [], false⟩

def group : CommandSpec :=
  ⟨"mathexpr", "[OPTIONS] COMMAND [ARGS]...",
    [⟨"verbose", ["--verbose"], ['V'], false⟩, helpOption], false⟩

def evalCommand : CommandSpec :=
  ⟨"mathexpr eval", "[OPTIONS] EXPRESSION",
    [⟨"var", ["--var"], ['v'], true⟩, flag "optimize", flag "compiled", flag "force-semicolon",
      ⟨"config", ["--config"], [], true⟩, helpOption], true⟩

def tokensCommand : CommandSpec :=
  ⟨"mathexpr tokens", "[OPTIONS] EXPRESSION", [helpOption], true⟩

def astCommand : CommandSpec :=
  ⟨"mathexpr ast", "[OPTIONS] EXPRESSION", [flag "optimize", flag "force-semicolon", helpOption],
    true⟩

def functionsCommand : CommandSpec :=
  ⟨"mathexpr functions", "[OPTIONS]", [flag "json", helpOption], true⟩

/-- The only positional argument of a command. -/
def expression (arguments : Arguments) : Except UsageError String :=
  match arguments.positional with
  | [] => .error (.missingArgument "EXPRESSION")
  | [only] => .ok only
  | _ :: others => .error (.extraArguments others)

/-- Reads a variable as its name, an equals sign and its value. -/
def readVariable (text : String) : Except UsageError (String × Value) :=
  let chars := text.toList
  let name := Text.strip (String.ofList (chars.takeWhile (· != '=')))
  if !chars.contains '=' || name.isEmpty then
    .error (.invalidValue none s!"expected NAME=VALUE, got '{text}'")
  else
    let written := String.ofList ((chars.dropWhile (· != '=')).drop 1)
    match Decimal.readFreeForm written with
    | some x => .ok (name, .float x)
    | none => .error (.invalidValue none s!"'{written}' is not a number")

/-- A path without empty parts and parts that stay in place. -/
def plainPath (path : String) : String :=
  let parts := (path.splitOn "/").filter fun part => !part.isEmpty && part != "."
  let joined := "/".intercalate parts
  if path.startsWith "/" then "/" ++ joined
  else if joined.isEmpty then "." else joined

/-- The path of the option file: the last one that is given. -/
def Arguments.configPath? (arguments : Arguments) : Option String :=
  (arguments.values "config").getLast?

/-- The option file of a command, by its plain path and content. -/
def configFile (world : World) (arguments : Arguments) :
    Except UsageError (Option (String × String)) :=
  match arguments.configPath? with
  | none => .ok none
  | some path =>
    match world.file path with
    | .content text => .ok (some (plainPath path, text))
    | .missing =>
      .error (.invalidValue (some "'--config'") s!"File {Text.quoted path} does not exist.")
    | .directory =>
      .error (.invalidValue (some "'--config'") s!"File {Text.quoted path} is a directory.")

/-- The options of a run: from the file, or else from the environment. -/
def loadOptions (world : World) (file : Option (String × String)) (force : Bool) :
    Except OptionError Options := do
  let options ← match file with
    | some (path, text) => Options.ofDocument .standard path (world.load text)
    | none => Options.ofVariable .standard (world.environment Options.variableName)
  return if force then ⟨true⟩ else options

/-- The notes as a reader sees them, if they are wanted. -/
def noteLines (verbose : Bool) (notes : Notes) : String :=
  if verbose then String.join (notes.map fun note => note.line ++ "\n") else ""

/-- The outcome of a request that failed. What the language of formulas knows about is reported;
other troubles escape. -/
def failed (verbose : Bool) (notes : Notes) : Trouble → Outcome
  | .text error => .failure error.message (noteLines verbose notes)
  | .fault fault =>
    if fault.isEvaluation then .failure fault.message (noteLines verbose notes)
    else .escape (.fault fault) (noteLines verbose notes)
  | .options error => .escape (.options error) (noteLines verbose notes)

/-- The value of a formula, by evaluation or through its compiled form. -/
def valueOf (world : World) (arguments : Arguments) (calculator : Calculator Notes)
    (overrides : Store) : Effect Notes Value := do
  let calculator ←
    if arguments.has "optimize" then calculator.optimize world.registry else pure calculator
  if arguments.has "compiled" then
    let program ← calculator.compile world.registry
    program.call overrides
  else
    ⟨fun notes =>
      let (result, _, notes) := calculator.evaluate world.registry overrides notes
      (result, notes)⟩

/-- Reads the arguments of a command, what `check` finds in its options, and its formula. -/
def withExpression {α : Type} (command : CommandSpec) (given : List String)
    (check : Arguments → Except UsageError α) (run : Arguments → α → String → Outcome) : Outcome :=
  match command.read given with
  | .error error => .usage command error
  | .ok arguments =>
    if arguments.has "help" then .usageLine command
    else
      match check arguments, expression arguments with
      | .error error, _ => .usage command error
      | .ok _, .error error => .usage command error
      | .ok found, .ok text => run arguments found text

def runEval (world : World) (verbose : Bool) (given : List String) : Outcome :=
  withExpression evalCommand given (configFile world) fun arguments file text =>
    match (arguments.values "var").mapM readVariable with
    | .error error => .usage evalCommand error
    | .ok assigned =>
      match loadOptions world file (arguments.has "force-semicolon") with
      | .error error =>
        if error.kind == .value then
          .usage evalCommand (.invalidValue (some "--config") error.message)
        else .escape (.options error) ""
      | .ok options =>
        match Calculator.create (some text) options with
        | .error error => failed verbose [] (.text error)
        | .ok calculator =>
          match (valueOf world arguments calculator (.ofList assigned)).run [] with
          | (.ok value, notes) => .success (value.text ++ "\n") (noteLines verbose notes)
          | (.error fault, notes) => failed verbose notes (.fault fault)

def tokenLine (token : Token) : String :=
  padLeft 4 (toString token.position) ++ "  " ++ padRight 10 token.kind.name ++ " " ++
    token.text ++ "\n"

def runTokens (verbose : Bool) (given : List String) : Outcome :=
  withExpression tokensCommand given (fun _ => .ok ()) fun _ _ text =>
    match lex TokenRule.standard (some text) with
    | .error error => failed verbose [] (.text (.lexical error))
    | .ok tokens => .success (String.join (tokens.map tokenLine)) ""

/-- A tree with the number of its nodes and its variables. -/
def treeReport (tree : Expr) : Except Fault String := do
  let text ← tree.text .standard
  let nodes ← Calculator.countNodes tree
  let names ← Calculator.listVariables tree
  let list := if names.isEmpty then "(none)" else ", ".intercalate names
  return s!"{text}\nnodes: {nodes}\nvariables: {list}\n"

def runAst (world : World) (verbose : Bool) (given : List String) : Outcome :=
  withExpression astCommand given (fun _ => .ok ()) fun arguments _ text =>
    match Calculator.create (some text) ⟨arguments.has "force-semicolon"⟩ with
    | .error error => failed verbose [] (.text error)
    | .ok calculator =>
      let shown : Effect Notes (Calculator Notes) :=
        if arguments.has "optimize" then calculator.optimize world.registry else pure calculator
      match shown.run [] with
      | (.error fault, notes) => failed verbose notes (.fault fault)
      | (.ok calculator, notes) =>
        match calculator.requireTree >>= treeReport with
        | .ok report => .success report (noteLines verbose notes)
        | .error fault => .escape (.fault fault) (noteLines verbose notes)

def runFunctions (world : World) (given : List String) : Outcome :=
  match functionsCommand.read given with
  | .error error => .usage functionsCommand error
  | .ok arguments =>
    if arguments.has "help" then .usageLine functionsCommand
    else if !arguments.positional.isEmpty then
      .usage functionsCommand (.extraArguments arguments.positional)
    else if arguments.has "json" then
      .success ((registryRecord world.registry).render 0 ++ "\n") ""
    else .success (registryTable world.registry) ""

/-- Whether the name of a command begins with a sign, as options do. Characters beyond the first 128
are no signs. -/
def beginsWithSign (name : String) : Bool :=
  name.toList.head?.any fun c => c.toNat < 128 && !c.isAlphanum

/-- Runs the command that the arguments name. A name that looks like an option asks for help. -/
def run (world : World) (given : List String) : Outcome :=
  match group.read given with
  | .error error => .usage group error
  | .ok arguments =>
    let verbose := arguments.has "verbose"
    let help := Outcome.usageLine group
    if arguments.has "help" || given.isEmpty then help
    else match arguments.positional with
      | [] => .usage group .missingCommand
      | command :: rest =>
        if command == "eval" then runEval world verbose rest
        else if command == "tokens" then runTokens verbose rest
        else if command == "ast" then runAst world verbose rest
        else if command == "functions" then runFunctions world rest
        else if beginsWithSign command then help
        else .usage group (.noSuchCommand command)

/-- The only file that a run with these arguments may look for. -/
def optionFile? (given : List String) : Option String := do
  let outer ← (group.read given).toOption
  let arguments ← (evalCommand.read (outer.positional.drop 1)).toOption
  arguments.configPath?

end Formula.CommandLine
