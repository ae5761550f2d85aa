import Formula.Calculator

namespace Formula

variable {σ : Type}

/-- Named calculators and compiled formulas side by side over one registry. -/
structure Session (σ : Type) where
  registry : Registry σ
  calculators : List (String × Calculator σ)
  programs : List (String × Program σ)
  host : σ

inductive Step (σ : Type) where
  | create (calculator : String) (source : Option String) (config : Datum)
  | parse (calculator : String) (source : Option String)
  | evaluate (calculator : String) (overrides : Store)
  | optimize (calculator : String)
  | compile (calculator program : String)
  | call (program : String) (overrides : Store)
  | programVariables (program : String)
  | programLiteral (program : String)
  | register (calculator name : String) (callee : Callee σ)
  | setHandler (calculator : String) (handler : String → Effect σ Value)
  | setVariable (calculator name : String) (value : Value)
  | deleteVariable (calculator name : String)
  | listVariables (calculator : String)
  | countNodes (calculator : String)
  | literal (calculator : String)
  | options (calculator : String)
  | functionNames (calculator : String)
  | foldableNames (calculator : String)
  | resolves (calculator name : String)
  | clearRegistry
  | registerBuiltins
  | registerDefinition (category : String) (definition : FunctionCategory → Definition σ)
  | isRegistered (name : String)
  | listCategory (category : String)
  | listRegistry

/-- What a step answers. -/
inductive Reply (σ : Type) where
  | done
  | value (value : Value)
  | names (names : List String)
  | count (n : Nat)
  | flag (b : Bool)
  | text (text : String)
  | definitions (definitions : List (Definition σ))
  /-- All names, and the names of each category. -/
  | registry (names : List String) (byCategory : List (FunctionCategory × List String))

namespace Session

def standard (host : σ) : Session σ :=
  ⟨.standard, [], [], host⟩

/-- A list with the entry of a name replaced, or put in front. -/
def enter {α : Type} (entries : List (String × α)) (name : String) (entry : α) :
    List (String × α) :=
  (name, entry) :: entries.filter (·.1 != name)

def setCalculator (session : Session σ) (name : String) (calculator : Calculator σ) :
    Session σ :=
  { session with calculators := enter session.calculators name calculator }

def calculator? (session : Session σ) (name : String) : Option (Calculator σ) :=
  session.calculators.lookup name

/-- What happens where a step names no calculator or program that is there. -/
def absent (name : String) : Trouble :=
  .fault (.external .key (Text.quoted name))

/-- A step that only looks at a calculator. -/
def inspect (session : Session σ) (name : String)
    (look : Calculator σ → Except Fault (Reply σ)) : Except Trouble (Reply σ) × Session σ :=
  match session.calculator? name with
  | none => (.error (absent name), session)
  | some calculator => ((look calculator).mapError .fault, session)

/-- A step that replaces a calculator. -/
def update (session : Session σ) (name : String)
    (change : Calculator σ → Effect σ (Calculator σ)) : Except Trouble (Reply σ) × Session σ :=
  match session.calculator? name with
  | none => (.error (absent name), session)
  | some calculator =>
    let (result, host) := (change calculator).run session.host
    let session := { session with host }
    match result with
    | .ok calculator => (.ok .done, session.setCalculator name calculator)
    | .error fault => (.error (.fault fault), session)

def inspectProgram (session : Session σ) (name : String) (look : Program σ → Reply σ) :
    Except Trouble (Reply σ) × Session σ :=
  match session.programs.lookup name with
  | none => (.error (absent name), session)
  | some program => (.ok (look program), session)

/-- The category of a text, or the complaint that there is none. -/
def category (text : String) : Except Trouble FunctionCategory :=
  match FunctionCategory.ofText? text with
  | some category => .ok category
  | none => .error (.fault (.unknownCategory text))

variable [Journal σ]

def step (session : Session σ) : Step σ → Except Trouble (Reply σ) × Session σ
  | .create name source config =>
    match Options.ofSource .standard (.datum config) with
    | .error error => (.error (.options error), session)
    | .ok options =>
      match Calculator.create source options with
      | .error error => (.error (.text error), session)
      | .ok calculator => (.ok .done, session.setCalculator name calculator)
  | .parse name source =>
    match session.calculator? name with
    | none => (.error (absent name), session)
    | some calculator =>
      match calculator.parse source with
      | .error error => (.error (.text error), session)
      | .ok calculator => (.ok .done, session.setCalculator name calculator)
  | .evaluate name overrides =>
    match session.calculator? name with
    | none => (.error (absent name), session)
    | some calculator =>
      let (result, calculator, host) := calculator.evaluate session.registry overrides session.host
      ((result.map .value).mapError .fault,
        { session with host }.setCalculator name calculator)
  | .optimize name => session.update name (·.optimize session.registry)
  | .compile name program =>
    match session.calculator? name with
    | none => (.error (absent name), session)
    | some calculator =>
      let (result, host) := (calculator.compile session.registry).run session.host
      let session := { session with host }
      match result with
      | .error fault => (.error (.fault fault), session)
      | .ok compiled => (.ok .done,
          { session with programs := enter session.programs program compiled })
  | .call program overrides =>
    match session.programs.lookup program with
    | none => (.error (absent program), session)
    | some compiled =>
      let (result, host) := (compiled.call overrides).run session.host
      ((result.map .value).mapError .fault, { session with host })
  | .programVariables program => session.inspectProgram program fun compiled =>
      .names compiled.names
  | .programLiteral program => session.inspectProgram program fun compiled =>
      .text compiled.literal
  | .register name function callee =>
    session.update name (·.register session.registry function callee)
  | .setHandler name handler =>
    session.update name fun calculator => return { calculator with missing := handler }
  | .setVariable name variableName value =>
    session.update name fun calculator => return calculator.setVariable variableName value
  | .deleteVariable name variableName =>
    session.update name fun calculator => return calculator.deleteVariable variableName
  | .listVariables name => session.inspect name fun calculator => do
      let tree ← calculator.requireTree
      return .names (← Calculator.listVariables tree)
  | .countNodes name => session.inspect name fun calculator => do
      let tree ← calculator.requireTree
      return .count (← Calculator.countNodes tree)
  | .literal name => session.inspect name fun calculator => return .text calculator.literal
  | .options name => session.inspect name fun calculator =>
      return .flag calculator.options.forceSemicolon
  | .functionNames name => session.inspect name fun calculator =>
      return .names (calculator.functions.names session.registry)
  | .foldableNames name => session.inspect name fun calculator =>
      return .names (calculator.functions.foldableNames session.registry)
  | .resolves name function => session.inspect name fun calculator =>
      return .flag (calculator.functions.resolve session.registry function).isSome
  | .clearRegistry => (.ok .done, { session with registry := .empty })
  | .registerBuiltins => (.ok .done, { session with registry := session.registry.withBuiltins })
  | .registerDefinition text definition =>
    match category text with
    | .error trouble => (.error trouble, session)
    | .ok category => (.ok .done,
        { session with registry := session.registry.register (definition category) })
  | .isRegistered name => (.ok (.flag (session.registry.contains name)), session)
  | .listCategory text =>
    match category text with
    | .error trouble => (.error trouble, session)
    | .ok category => (.ok (.definitions (session.registry.inCategory category)), session)
  | .listRegistry =>
    let byCategory := session.registry.categories.map fun category =>
      (category, (session.registry.inCategory category).map (·.name))
    (.ok (.registry session.registry.names byCategory), session)

end Session

end Formula
