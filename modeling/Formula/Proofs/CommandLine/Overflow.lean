import Formula.CommandLine
import Formula.Proofs.Session.Floats

namespace Formula

open Formula.Expr

namespace CommandLine

/-- Writing a tree is dearer than counting its nodes, so it alone decides. -/
theorem treeReport_cases {tree : Expr} (printable : tree.Everywhere Printable) :
    (tree.nesting ≤ 328 ∧ ∃ report, treeReport tree = .ok report) ∨
      328 < tree.nesting ∧ treeReport tree = .error .stackExhausted := by
  unfold treeReport
  rcases text_spends printable .standard with ⟨hroom, text, htext⟩ | ⟨hroom, htext⟩
  · have hnesting : 3 * tree.nesting ≤ 985 := holds_standard.mp hroom
    have hheight := height_le_nesting printable
    have hholds : Room.standard.holds tree.height = true := holds_standard.mpr (by omega)
    rw [htext, Calculator.countNodes, Calculator.listVariables, if_pos hholds, if_pos hholds]
    exact .inl ⟨by omega, _, rfl⟩
  · have hroom : Room.standard.holds (3 * tree.nesting) = false := hroom
    have hnesting : ¬ 3 * tree.nesting ≤ 985 := by
      rw [← holds_standard, hroom]
      exact Bool.false_ne_true
    rw [htext]
    exact .inr ⟨by omega, rfl⟩

theorem exhausts_treeReport {tree : Expr} (printable : tree.Everywhere Printable) :
    Exhausts (treeReport tree) ↔ 328 < tree.nesting := by
  rcases treeReport_cases printable with ⟨hlow, report, hreport⟩ | ⟨hdeep, hreport⟩
  · rw [hreport]
    exact iff_of_false (not_exhausts_ok report) (by omega)
  · rw [hreport]
    exact iff_of_true (exhausts_error.mpr rfl) hdeep

/-- Whether a run ends because the stack was exhausted. -/
def Outcome.Overflows (outcome : Outcome) : Prop :=
  ∃ trouble, outcome.escaped = some trouble ∧ trouble.IsOverflow

namespace Outcome

variable {outcome : Outcome} {trouble : Trouble} {verbose : Bool} {notes : Notes}

theorem not_overflows (h : outcome.escaped = none) : ¬ outcome.Overflows := by
  rintro ⟨trouble, htrouble, -⟩
  cases h.symm.trans htrouble

theorem overflows_escape {text : String} :
    (Outcome.escape trouble text).Overflows ↔ trouble.IsOverflow := by
  simp [Outcome.Overflows, escape]

theorem overflows_failed : (failed verbose notes trouble).Overflows ↔ trouble.IsOverflow := by
  cases trouble with
  | text error => exact iff_of_false (not_overflows rfl) id
  | options error => exact overflows_escape
  | fault fault =>
    rw [failed]
    split
    next h =>
      refine iff_of_false (not_overflows rfl) fun hkind => ?_
      have hkind : fault.kind = .recursion := hkind
      rw [Fault.isEvaluation, hkind] at h
      cases h
    next => exact overflows_escape

end Outcome

/-- Whether a command finds these options and this formula in its arguments and no call for help. -/
structure CommandSpec.Reads (command : CommandSpec) (given : List String) (arguments : Arguments)
    (text : String) : Prop where
  read : command.read given = .ok arguments
  help : arguments.has "help" = false
  expression : CommandLine.expression arguments = .ok text

variable {given : List String} {arguments : Arguments} {text : String} {verbose : Bool}
  {trouble : Trouble}

theorem escaped_withExpression {α : Type} {command : CommandSpec}
    {check : Arguments → Except UsageError α} {run : Arguments → α → String → Outcome} :
    (withExpression command given check run).escaped = some trouble ↔ ∃ arguments text found,
      command.Reads given arguments text ∧ check arguments = .ok found ∧
        (run arguments found text).escaped = some trouble := by
  unfold withExpression
  constructor
  · intro h
    split at h
    next => cases h
    next arguments hread =>
      split at h
      next => cases h
      next hhelp =>
        split at h
        next => cases h
        next => cases h
        next found text hcheck hexpression =>
          exact ⟨arguments, text, found,
            ⟨hread, Bool.eq_false_iff.mpr hhelp, hexpression⟩, hcheck, h⟩
  · rintro ⟨arguments, text, found, ⟨hread, hhelp, hexpression⟩, hcheck, h⟩
    simpa [hread, hhelp, hexpression, hcheck] using h

theorem overflows_withExpression {α : Type} {command : CommandSpec}
    {check : Arguments → Except UsageError α} {run : Arguments → α → String → Outcome} :
    (withExpression command given check run).Overflows ↔ ∃ arguments text found,
      command.Reads given arguments text ∧ check arguments = .ok found ∧
        (run arguments found text).Overflows := by
  constructor
  · rintro ⟨trouble, htrouble, hoverflow⟩
    obtain ⟨arguments, text, found, hreads, hcheck, h⟩ := escaped_withExpression.mp htrouble
    exact ⟨arguments, text, found, hreads, hcheck, trouble, h, hoverflow⟩
  · rintro ⟨arguments, text, found, hreads, hcheck, trouble, h, hoverflow⟩
    exact ⟨trouble, escaped_withExpression.mpr ⟨arguments, text, found, hreads, hcheck, h⟩,
      hoverflow⟩

/-- The value of a formula in a calculator as it is. -/
def currentValue (world : World) (arguments : Arguments) (overrides : Store)
    (calculator : Calculator Notes) : Effect Notes Value :=
  if arguments.has "compiled" then do
    let program ← calculator.compile world.registry
    program.call overrides
  else ⟨fun notes =>
    ((calculator.evaluate world.registry overrides notes).1,
      (calculator.evaluate world.registry overrides notes).2.2)⟩

variable {world : World} {calculator : Calculator Notes} {overrides : Store} {notes : Notes}

theorem valueOf_eq :
    valueOf world arguments calculator overrides =
      if arguments.has "optimize" then
        calculator.optimize world.registry >>= currentValue world arguments overrides
      else currentValue world arguments overrides calculator := by
  unfold valueOf
  cases arguments.has "optimize" <;> rfl

theorem not_exhausts_currentValue :
    ¬ Exhausts ((currentValue world arguments overrides calculator).run notes).1 := by
  unfold currentValue
  split
  next =>
    rw [Effect.exhausts_run_bind]
    rintro (h | ⟨program, between, -, h⟩)
    · exact calculator.not_exhausts_compile _ _ h
    · exact program.not_exhausts_call _ _ h
  next => exact calculator.not_exhausts_evaluate _ _ _

theorem exhausts_valueOf :
    Exhausts ((valueOf world arguments calculator overrides).run notes).1 ↔
      arguments.has "optimize" = true ∧
        ∃ tree, calculator.tree = some tree ∧ 985 < tree.height := by
  rw [valueOf_eq]
  split
  next hoptimize =>
    rw [Effect.exhausts_run_bind, Calculator.exhausts_optimize, hoptimize]
    constructor
    · rintro (h | ⟨made, between, -, h⟩)
      · exact ⟨rfl, h⟩
      · exact absurd h not_exhausts_currentValue
    · exact fun h => .inl h.2
  next hoptimize =>
    exact iff_of_false not_exhausts_currentValue fun h => hoptimize h.1

/-- A new calculator with a tree. -/
def freshWith (options : Options) (tree : Expr) : Calculator Notes :=
  { Calculator.empty options with tree := some tree }

theorem create_eq_ok_iff {options : Options} :
    Calculator.create (some text) options = .ok calculator ↔
      ∃ tree, parse .standard options.forceSemicolon (some text) = .ok tree ∧
        calculator = freshWith options tree := by
  constructor
  · exact Calculator.exists_of_parse
  · rintro ⟨tree, htree, rfl⟩
    rw [Calculator.create, Calculator.parse]
    simp only [Calculator.empty, htree]
    rfl

/-- Whether `eval` gets to a tree: it finds a formula, variables and options, and the formula parses
under these options. -/
def EvalReads (world : World) (given : List String) (arguments : Arguments) (tree : Expr) : Prop :=
  ∃ text file assigned options, evalCommand.Reads given arguments text ∧
    configFile world arguments = .ok file ∧
    (arguments.values "var").mapM readVariable = .ok assigned ∧
    loadOptions world file (arguments.has "force-semicolon") = .ok options ∧
    parse .standard options.forceSemicolon (some text) = .ok tree

/-- Whether `eval` gets to its options and these are refused. -/
def EvalRefuses (world : World) (given : List String) (error : OptionError) : Prop :=
  ∃ arguments text file assigned, evalCommand.Reads given arguments text ∧
    configFile world arguments = .ok file ∧
    (arguments.values "var").mapM readVariable = .ok assigned ∧
    loadOptions world file (arguments.has "force-semicolon") = .error error

theorem exists_of_escaped_runEval (h : (runEval world verbose given).escaped = some trouble) :
    (∃ error, EvalRefuses world given error ∧ trouble = .options error) ∨
      ∃ arguments tree options assigned fault notes, EvalReads world given arguments tree ∧
      (arguments.values "var").mapM readVariable = .ok assigned ∧
      (valueOf world arguments (freshWith options tree) (.ofList assigned)).run [] =
        (.error fault, notes) ∧
      (failed verbose notes (.fault fault)).escaped = some trouble := by
  obtain ⟨arguments, text, file, hreads, hfile, h⟩ := escaped_withExpression.mp h
  split at h
  next => cases h
  next assigned hassigned =>
    split at h
    next error hoptions =>
      split at h
      next => cases h
      next =>
        cases h
        exact .inl ⟨error, ⟨arguments, text, file, assigned, hreads, hfile, hassigned, hoptions⟩,
          rfl⟩
    next options hoptions =>
      split at h
      next => cases h
      next calculator hcreate =>
        obtain ⟨tree, htree, rfl⟩ := create_eq_ok_iff.mp hcreate
        split at h
        next => cases h
        next fault notes hfails =>
          exact .inr ⟨arguments, tree, options, assigned, fault, notes,
            ⟨text, file, assigned, options, hreads, hfile, hassigned, hoptions, htree⟩,
            hassigned, hfails, h⟩

theorem EvalReads.overflows {tree : Expr} (h : EvalReads world given arguments tree)
    (hoptimize : arguments.has "optimize" = true) (hheight : 985 < tree.height) :
    (runEval world verbose given).Overflows := by
  obtain ⟨text, file, assigned, options, hreads, hfile, hassigned, hoptions, htree⟩ := h
  refine overflows_withExpression.mpr ⟨arguments, text, file, hreads, hfile, ?_⟩
  have hcreate := create_eq_ok_iff.mpr ⟨tree, htree, rfl⟩
  obtain ⟨fault, hfault, hkind⟩ :
      Exhausts ((valueOf world arguments (freshWith options tree) (.ofList assigned)).run []).1 :=
    exhausts_valueOf.mpr ⟨hoptimize, tree, rfl, hheight⟩
  rcases hvalue :
      (valueOf world arguments (freshWith options tree) (.ofList assigned)).run [] with
    ⟨result, notes⟩
  rw [hvalue] at hfault
  cases hfault
  simp only [hassigned, hoptions, hcreate, hvalue]
  exact Outcome.overflows_failed.mpr hkind

theorem EvalRefuses.overflows {error : OptionError} (h : EvalRefuses world given error)
    (hkind : error.kind = .recursion) : (runEval world verbose given).Overflows := by
  obtain ⟨arguments, text, file, assigned, hreads, hfile, hassigned, hoptions⟩ := h
  refine overflows_withExpression.mpr ⟨arguments, text, file, hreads, hfile, ?_⟩
  have hvalue : ¬ (error.kind == .value) = true := by
    rw [hkind]
    decide
  simp only [hassigned, hoptions, if_neg hvalue]
  exact Outcome.overflows_escape.mpr hkind

theorem overflows_runEval :
    (runEval world verbose given).Overflows ↔
      (∃ arguments tree, EvalReads world given arguments tree ∧ arguments.has "optimize" = true ∧
        985 < tree.height) ∨
      ∃ error, EvalRefuses world given error ∧ error.kind = .recursion := by
  constructor
  · rintro ⟨trouble, htrouble, hoverflow⟩
    rcases exists_of_escaped_runEval htrouble with ⟨error, hrefuses, rfl⟩ |
      ⟨arguments, tree, options, assigned, fault, notes, hreads, -, hfails, hescaped⟩
    · exact .inr ⟨error, hrefuses, hoverflow⟩
    · have hkind : fault.kind = .recursion :=
        Outcome.overflows_failed.mp ⟨trouble, hescaped, hoverflow⟩
      obtain ⟨hoptimize, _, ⟨⟩, hheight⟩ := exhausts_valueOf.mp ⟨fault, by rw [hfails], hkind⟩
      exact .inl ⟨arguments, tree, hreads, hoptimize, hheight⟩
  · rintro (⟨arguments, tree, hreads, hoptimize, hheight⟩ | ⟨error, hrefuses, hkind⟩)
    · exact hreads.overflows hoptimize hheight
    · exact hrefuses.overflows hkind

/-- Whether `ast` gets to a tree: it finds a formula that parses. -/
def AstReads (given : List String) (arguments : Arguments) (tree : Expr) : Prop :=
  ∃ text, astCommand.Reads given arguments text ∧
    parse .standard (arguments.has "force-semicolon") (some text) = .ok tree

/-- Whether `ast` comes to show a tree in place of a parsed one. -/
def Shows (world : World) (optimized : Bool) (tree shown : Expr) : Prop :=
  if optimized then ∃ notes,
    (optimize ⟨world.registry.callee?, Journal.write⟩ .standard tree).run [] = (.ok shown, notes)
  else shown = tree

theorem folding_freshWith (options : Options) (tree : Expr) (registry : Registry Notes) :
    (freshWith options tree).folding registry = ⟨registry.callee?, Journal.write⟩ := rfl

/-- What `ast` does with the calculator that holds its formula, optimized or not. -/
def showTree (verbose : Bool) (shown : Effect Notes (Calculator Notes)) : Outcome :=
  match shown.run [] with
  | (.error fault, notes) => failed verbose notes (.fault fault)
  | (.ok calculator, notes) =>
    match calculator.requireTree >>= treeReport with
    | .ok report => .success report (noteLines verbose notes)
    | .error fault => .escape (.fault fault) (noteLines verbose notes)

theorem overflows_showTree {shown : Effect Notes (Calculator Notes)} :
    (showTree verbose shown).Overflows ↔ Exhausts (shown.run []).1 ∨ ∃ made notes,
      shown.run [] = (.ok made, notes) ∧ Exhausts (made.requireTree >>= treeReport) := by
  unfold showTree
  rcases shown.run [] with ⟨fault | made, notes⟩
  · simp [Outcome.overflows_failed]
  · dsimp only
    rcases hreport : made.requireTree >>= treeReport with fault | report
    · simp [hreport, Outcome.overflows_escape]
    · have hsuccess : ¬ (Outcome.success report (noteLines verbose notes)).Overflows :=
        Outcome.not_overflows rfl
      simp [hreport, hsuccess]

/-- The calculator whose tree `ast` shows. -/
def prepared (world : World) (options : Options) (optimized : Bool) (tree : Expr) :
    Effect Notes (Calculator Notes) :=
  if optimized then (freshWith options tree).optimize world.registry
  else pure (freshWith options tree)

/-- Showing a tree overflows where it has too many levels to be optimized, or where the tree that is
shown lies too deep to be written. -/
theorem overflows_showTree_prepared {options : Options} {tree : Expr} {optimized : Bool}
    (program : tree.IsProgram) :
    (showTree verbose (prepared world options optimized tree)).Overflows ↔
        optimized = true ∧ 985 < tree.height ∨
          ∃ shown, Shows world optimized tree shown ∧ 328 < shown.nesting := by
  rw [overflows_showTree]
  cases optimized with
  | false =>
    have hreport := exhausts_treeReport program.printable
    constructor
    · rintro (h | ⟨_, _, ⟨⟩, h⟩)
      · exact absurd h (not_exhausts_ok _)
      · exact .inr ⟨tree, rfl, hreport.mp h⟩
    · rintro (⟨⟨⟩, -⟩ | ⟨_, rfl, h⟩)
      exact .inr ⟨_, _, rfl, hreport.mpr h⟩
  | true =>
    constructor
    · rintro (h | ⟨made, notes, hmade, h⟩)
      · obtain ⟨_, ⟨⟩, hheight⟩ := Calculator.exhausts_optimize.mp h
        exact .inl ⟨rfl, hheight⟩
      · obtain ⟨_, folded, after, ⟨⟩, -, hfolded, rfl⟩ :=
          Calculator.optimize_eq_ok_iff.mp ⟨notes, hmade⟩
        have hprintable := (yields_of_optimize hfolded).printable program.printable
        exact .inr ⟨folded, ⟨after, hfolded⟩, (exhausts_treeReport hprintable).mp h⟩
    · rintro (⟨-, hheight⟩ | ⟨folded, ⟨notes, hfolded⟩, h⟩)
      · exact .inl (Calculator.exhausts_optimize.mpr ⟨tree, rfl, hheight⟩)
      by_cases hheight : 985 < tree.height
      · exact .inl (Calculator.exhausts_optimize.mpr ⟨tree, rfl, hheight⟩)
      · rw [← folding_freshWith options tree] at hfolded
        obtain ⟨after, hmade⟩ := Calculator.optimize_eq_ok_iff.mpr
          ⟨tree, folded, notes, rfl, Nat.le_of_not_lt hheight, hfolded, rfl⟩
        have hprintable := (yields_of_optimize hfolded).printable program.printable
        exact .inr ⟨_, after, hmade, (exhausts_treeReport hprintable).mpr h⟩

theorem escaped_runAst :
    (runAst world verbose given).escaped = some trouble ↔ ∃ arguments tree,
      AstReads given arguments tree ∧ (showTree verbose (prepared world
        ⟨arguments.has "force-semicolon"⟩ (arguments.has "optimize") tree)).escaped =
          some trouble := by
  rw [runAst, escaped_withExpression]
  constructor
  · rintro ⟨arguments, text, _, hreads, -, h⟩
    split at h
    next => cases h
    next calculator hcreate =>
      obtain ⟨tree, htree, rfl⟩ := create_eq_ok_iff.mp hcreate
      exact ⟨arguments, tree, ⟨text, hreads, htree⟩, h⟩
  · rintro ⟨arguments, tree, ⟨text, hreads, htree⟩, h⟩
    refine ⟨arguments, text, (), hreads, rfl, ?_⟩
    have hcreate : Calculator.create (some text) ⟨arguments.has "force-semicolon"⟩ =
        .ok (freshWith ⟨arguments.has "force-semicolon"⟩ tree) :=
      create_eq_ok_iff.mpr ⟨tree, htree, rfl⟩
    rw [hcreate]
    exact h

theorem AstReads.isProgram {tree : Expr} (h : AstReads given arguments tree) : tree.IsProgram := by
  obtain ⟨text, -, htree⟩ := h
  exact isProgram_of_parse htree

theorem overflows_runAst :
    (runAst world verbose given).Overflows ↔ ∃ arguments tree, AstReads given arguments tree ∧
      (arguments.has "optimize" = true ∧ 985 < tree.height ∨
        ∃ shown, Shows world (arguments.has "optimize") tree shown ∧ 328 < shown.nesting) := by
  constructor
  · rintro ⟨trouble, htrouble, hoverflow⟩
    obtain ⟨arguments, tree, hreads, h⟩ := escaped_runAst.mp htrouble
    exact ⟨arguments, tree, hreads,
      (overflows_showTree_prepared hreads.isProgram).mp ⟨trouble, h, hoverflow⟩⟩
  · rintro ⟨arguments, tree, hreads, h⟩
    obtain ⟨trouble, htrouble, hoverflow⟩ := (overflows_showTree_prepared hreads.isProgram).mpr h
    exact ⟨trouble, escaped_runAst.mpr ⟨arguments, tree, hreads, htrouble⟩, hoverflow⟩

/-- Whether the arguments of a run name a command, with arguments of its own. -/
def Calls (given : List String) (command : String) (rest : List String) : Prop :=
  given ≠ [] ∧ ∃ arguments, group.read given = .ok arguments ∧ arguments.has "help" = false ∧
    arguments.positional = command :: rest

variable {rest : List String} {command : String}

theorem run_of_calls_eval (world : World) (h : Calls given "eval" rest) :
    ∃ verbose, run world given = runEval world verbose rest := by
  obtain ⟨hsome, arguments, hread, hhelp, hpositional⟩ := h
  have hempty : given.isEmpty = false := by simpa using hsome
  refine ⟨arguments.has "verbose", ?_⟩
  simp only [run, hread, hhelp, hempty, hpositional]
  rfl

theorem run_of_calls_ast (world : World) (h : Calls given "ast" rest) :
    ∃ verbose, run world given = runAst world verbose rest := by
  obtain ⟨hsome, arguments, hread, hhelp, hpositional⟩ := h
  have hempty : given.isEmpty = false := by simpa using hsome
  refine ⟨arguments.has "verbose", ?_⟩
  simp only [run, hread, hhelp, hempty, hpositional]
  rfl

theorem not_escaped_runTokens : (runTokens verbose given).escaped ≠ some trouble := by
  intro h
  obtain ⟨_, text, _, -, -, h⟩ := escaped_withExpression.mp h
  split at h <;> cases h

theorem not_escaped_runFunctions : (runFunctions world given).escaped ≠ some trouble := by
  unfold runFunctions
  split
  next => exact nofun
  next =>
    split
    next => exact nofun
    next =>
      split
      next => exact nofun
      next => split <;> exact nofun

/-- No command but `eval` and `ast` lets a trouble out. -/
theorem calls_of_escaped (h : (run world given).escaped = some trouble) :
    ∃ rest, Calls given "eval" rest ∨ Calls given "ast" rest := by
  unfold run at h
  split at h
  next => cases h
  next arguments hread =>
    dsimp only at h
    split at h
    next => cases h
    next hask =>
      simp only [Bool.or_eq_true, List.isEmpty_iff, not_or, Bool.not_eq_true] at hask
      split at h
      next => cases h
      next command rest hpositional =>
        have hcalls : Calls given command rest := ⟨hask.2, arguments, hread, hask.1, hpositional⟩
        refine ⟨rest, ?_⟩
        by_cases heval : command = "eval"
        · exact .inl (heval ▸ hcalls)
        by_cases hast : command = "ast"
        · exact .inr (hast ▸ hcalls)
        rw [if_neg (by simpa using heval)] at h
        split at h
        next => exact absurd h not_escaped_runTokens
        next =>
          rw [if_neg (by simpa using hast)] at h
          split at h
          next => exact absurd h not_escaped_runFunctions
          next => split at h <;> cases h

/-- Whether `eval` optimizes a tree with too many levels. -/
def EvalOverflows (world : World) (given : List String) : Prop :=
  ∃ rest arguments tree, Calls given "eval" rest ∧ EvalReads world rest arguments tree ∧
    arguments.has "optimize" = true ∧ 985 < tree.height

/-- Whether `ast` optimizes a tree with too many levels or comes to show one that lies too deep. -/
def AstOverflows (world : World) (given : List String) : Prop :=
  ∃ rest arguments tree, Calls given "ast" rest ∧ AstReads rest arguments tree ∧
    (arguments.has "optimize" = true ∧ 985 < tree.height ∨
      ∃ shown, Shows world (arguments.has "optimize") tree shown ∧ 328 < shown.nesting)

/-- Whether the complaint about the options of `eval` overflows. -/
def OptionsOverflow (world : World) (given : List String) : Prop :=
  ∃ rest error, Calls given "eval" rest ∧ EvalRefuses world rest error ∧ error.kind = .recursion

theorem overflows_run :
    (run world given).Overflows ↔
      EvalOverflows world given ∨ AstOverflows world given ∨ OptionsOverflow world given := by
  constructor
  · intro h
    -- what escapes tells the command, but the run of the command is about the whole outcome
    obtain ⟨trouble, htrouble, -⟩ := id h
    obtain ⟨rest, hcalls | hcalls⟩ := calls_of_escaped htrouble
    · obtain ⟨verbose, hrun⟩ := run_of_calls_eval world hcalls
      rw [hrun, overflows_runEval] at h
      rcases h with ⟨arguments, tree, hreads, hoptimize, hheight⟩ | ⟨error, hrefuses, hkind⟩
      · exact .inl ⟨rest, arguments, tree, hcalls, hreads, hoptimize, hheight⟩
      · exact .inr (.inr ⟨rest, error, hcalls, hrefuses, hkind⟩)
    · obtain ⟨verbose, hrun⟩ := run_of_calls_ast world hcalls
      rw [hrun, overflows_runAst] at h
      obtain ⟨arguments, tree, hreads, hshown⟩ := h
      exact .inr (.inl ⟨rest, arguments, tree, hcalls, hreads, hshown⟩)
  · rintro (⟨rest, arguments, tree, hcalls, hreads, h⟩ |
      ⟨rest, arguments, tree, hcalls, hreads, h⟩ | ⟨rest, error, hcalls, hrefuses, hkind⟩)
    · obtain ⟨verbose, hrun⟩ := run_of_calls_eval world hcalls
      rw [hrun]
      exact hreads.overflows h.1 h.2
    · obtain ⟨verbose, hrun⟩ := run_of_calls_ast world hcalls
      rw [hrun, overflows_runAst]
      exact ⟨arguments, tree, hreads, h⟩
    · obtain ⟨verbose, hrun⟩ := run_of_calls_eval world hcalls
      rw [hrun]
      exact hrefuses.overflows hkind

section Floats

theorem isFloat_of_readVariable {entry : String × Value} (h : readVariable text = .ok entry) :
    entry.2.IsFloat := by
  unfold readVariable at h
  dsimp only at h
  split at h
  next => cases h
  next =>
    split at h
    next =>
      rw [← Except.ok.inj h]
      exact trivial
    next => cases h

theorem floats_of_mapM {texts : List String} {assigned : List (String × Value)}
    (h : texts.mapM readVariable = .ok assigned) : (Store.ofList assigned).All Value.IsFloat := by
  refine Store.all_ofList ?_
  induction texts generalizing assigned with
  | nil =>
    cases h
    simp
  | cons first rest ih =>
    rw [List.mapM_cons] at h
    obtain ⟨entry, hentry, h⟩ := exists_of_bind_eq_ok h
    obtain ⟨others, hothers, h⟩ := exists_of_bind_eq_ok h
    cases h
    exact List.forall_mem_cons.mpr ⟨isFloat_of_readVariable hentry, ih hothers⟩

/-- Among floats a command reports whatever fails, but for an exhausted stack. -/
theorem isOverflow_of_failed {fault : Fault} (hfault : fault.IsExpected)
    (h : (failed verbose notes (.fault fault)).escaped = some trouble) : trouble.IsOverflow := by
  rcases hfault with hfault | rfl
  · rw [failed, if_pos hfault] at h
    cases h
  · cases h
    rfl

theorem meets_currentValue (h : calculator.AmongFloats) (hregistry : world.registry = .standard)
    (floats : overrides.All Value.IsFloat) (notes : Notes) :
    Meets Value.IsFloat Fault.IsExpected
      ((currentValue world arguments overrides calculator).run notes).1 := by
  unfold currentValue
  rw [hregistry]
  split
  next =>
    refine (h.compile notes).run_bind fun program between hprogram => ?_
    exact (hprogram overrides between floats).mono fun _ => .inl
  next => exact (h.evaluate floats notes).1.mono fun _ => .inl

theorem meets_valueOf (h : calculator.AmongFloats) (hregistry : world.registry = .standard)
    (floats : overrides.All Value.IsFloat) (notes : Notes) :
    Meets Value.IsFloat Fault.IsExpected
      ((valueOf world arguments calculator overrides).run notes).1 := by
  rw [valueOf_eq]
  split
  next =>
    rw [hregistry]
    exact (h.optimize notes).run_bind fun made between hmade =>
      meets_currentValue hmade hregistry floats between
  next => exact meets_currentValue h hregistry floats notes

theorem amongFloats_freshWith {tree : Expr} (options : Options) (h : tree.IsProgram) :
    (freshWith options tree).AmongFloats := by
  have hempty : (Calculator.empty options : Calculator Notes).AmongFloats :=
    Calculator.amongFloats_empty options
  refine ⟨?_, hempty.functions, hempty.missing, hempty.store⟩
  rintro _ ⟨⟩
  exact h

theorem EvalReads.isProgram {tree : Expr} (h : EvalReads world given arguments tree) :
    tree.IsProgram := by
  obtain ⟨text, file, assigned, options, -, -, -, -, htree⟩ := h
  exact isProgram_of_parse htree

theorem isOverflow_or_isMisuse_of_runEval (hregistry : world.registry = .standard)
    (h : (runEval world verbose given).escaped = some trouble) :
    trouble.IsOverflow ∨ trouble.IsMisuse := by
  rcases exists_of_escaped_runEval h with ⟨error, -, rfl⟩ |
    ⟨arguments, tree, options, assigned, fault, notes, hreads, hassigned, hfails, hescaped⟩
  · exact .inr (.inl ⟨error, rfl⟩)
  · have hmeets : Meets Value.IsFloat Fault.IsExpected
        ((valueOf world arguments (freshWith options tree) (.ofList assigned)).run []).1 :=
      meets_valueOf (amongFloats_freshWith options hreads.isProgram) hregistry
        (floats_of_mapM hassigned) []
    rw [hfails] at hmeets
    exact .inl (isOverflow_of_failed hmeets hescaped)

theorem isOverflow_of_showTree {shown : Effect Notes (Calculator Notes)}
    (hshown : Meets Calculator.AmongFloats Fault.IsExpected (shown.run []).1)
    (hholds : ∀ made notes, shown.run [] = (.ok made, notes) → ∃ tree, made.tree = some tree)
    (h : (showTree verbose shown).escaped = some trouble) : trouble.IsOverflow := by
  unfold showTree at h
  rcases hrun : shown.run [] with ⟨fault | made, notes⟩
  · rw [hrun] at h hshown
    exact isOverflow_of_failed hshown h
  · rw [hrun] at h hshown
    dsimp only at h
    split at h
    next => cases h
    next fault hfault =>
      cases h
      obtain ⟨tree, htree⟩ := hholds made notes hrun
      rw [Calculator.requireTree_eq_ok_iff.mpr htree] at hfault
      rcases treeReport_cases (hshown.tree tree htree).printable with
        ⟨-, report, hok⟩ | ⟨-, herror⟩
      · cases hok.symm.trans hfault
      · cases herror.symm.trans hfault
        rfl

theorem isOverflow_of_runAst (hregistry : world.registry = .standard)
    (h : (runAst world verbose given).escaped = some trouble) : trouble.IsOverflow := by
  obtain ⟨arguments, tree, hreads, h⟩ := escaped_runAst.mp h
  have hfloats := amongFloats_freshWith ⟨arguments.has "force-semicolon"⟩ hreads.isProgram
  refine isOverflow_of_showTree ?_ (fun made notes hrun => ?_) h
  · unfold prepared
    split
    next => exact hregistry ▸ hfloats.optimize []
    next => exact hfloats
  · unfold prepared at hrun
    split at hrun
    next =>
      obtain ⟨_, folded, -, -, rfl⟩ := Calculator.exists_of_optimize hrun
      exact ⟨folded, rfl⟩
    next =>
      cases hrun
      exact ⟨tree, rfl⟩

theorem isOverflow_or_isMisuse_of_run (hregistry : world.registry = .standard)
    (h : (run world given).escaped = some trouble) : trouble.IsOverflow ∨ trouble.IsMisuse := by
  obtain ⟨rest, hcalls | hcalls⟩ := calls_of_escaped h
  · obtain ⟨verbose, hrun⟩ := run_of_calls_eval world hcalls
    exact isOverflow_or_isMisuse_of_runEval hregistry (hrun ▸ h)
  · obtain ⟨verbose, hrun⟩ := run_of_calls_ast world hcalls
    exact .inl (isOverflow_of_runAst hregistry (hrun ▸ h))

end Floats

end CommandLine

open Formula.CommandLine

/-- Where an exhausted stack gets out although a complaint about nesting is due: exactly where
optimizing, listing variables or counting nodes walks through a tree with more than 985 levels, and
where `ast` shows a tree with more than 328 nodes with parts one within the other; beside that where
the complaint about options overflows. Everything else that is asked of a formula, and of the same
formulas among floats, succeeds or is reported. -/
theorem overflows_iff_unguarded {σ : Type} [Journal σ] (session : Session σ) (step : Step σ)
    (hasks : step.AsksFormula) (world : World) (given : List String) :
    (Overflows (session.step step).1 ↔ (∃ tree, session.Walks step tree ∧ 985 < tree.height) ∨
        ∃ error, step.IsRefused error ∧ error.kind = .recursion) ∧
      ((run world given).Overflows ↔
        EvalOverflows world given ∨ AstOverflows world given ∨ OptionsOverflow world given) ∧
      (∀ host before, (∀ step ∈ before, step.KeepsFloats) → step.KeepsFloats →
        (Session.standard host).run before = session → Session.Answers (session.step step).1) ∧
      (world.registry = .standard → ∀ trouble, (run world given).escaped = some trouble →
        trouble.IsOverflow ∨ trouble.IsMisuse) := by
  refine ⟨Session.overflows_step hasks, overflows_run, ?_, ?_⟩
  · rintro host before hbefore hstep rfl
    exact ((Session.standard_amongFloats host).after_run hbefore).answers hstep hasks
  · exact fun hregistry trouble => isOverflow_or_isMisuse_of_run hregistry

/-- A number behind so many signs. -/
def signed (n : Nat) : String :=
  String.ofList (List.replicate n '-' ++ ['1'])

/-- A world with the built-in functions and nothing else. -/
def plainWorld : World :=
  ⟨.standard, fun _ => none, fun _ => .missing, fun _ => .ok .null⟩

/-- Steps with a tree that can be parsed and optimized but not compiled. -/
def signedSteps : List (Step Notes) :=
  [.create "deep" (some ("rate = " ++ signed 400)) .null,
    .setVariable "deep" "rate" (.float Binary.one), .optimize "deep", .compile "deep" "frozen"]

theorem overflows_iff_unguarded_signed :
    (∀ step ∈ signedSteps, step.KeepsFloats) ∧ plainWorld.registry = .standard ∧
      (let session := (Session.standard []).run signedSteps
       Session.Answers (session.step (.evaluate "deep" ∅)).1) ∧
      ∀ trouble, (run plainWorld ["ast", "--", signed 400]).escaped = some trouble →
        trouble.IsOverflow ∨ trouble.IsMisuse := by
  have hsteps : ∀ step ∈ signedSteps, step.KeepsFloats := by
    simp [signedSteps, Step.KeepsFloats, Value.IsFloat]
  obtain ⟨-, -, hanswers, hescapes⟩ := overflows_iff_unguarded
    ((Session.standard []).run signedSteps) (.evaluate "deep" ∅) trivial plainWorld
    ["ast", "--", signed 400]
  exact ⟨hsteps, rfl, hanswers [] signedSteps hsteps Store.all_empty rfl, hescapes rfl⟩

theorem parse_ofList (room : Room) (force : Bool) (chars : List Char) :
    parse room force (some (String.ofList chars)) =
      (TokenRule.tokensFrom TokenRule.standard (String.ofList chars) .start chars).mapError
        .lexical >>= parseTokens room force (String.ofList chars) := by
  rw [parse, lex, String.toList_ofList]

theorem astOverflows_of_parse {world : World} {text : String} {tree : Expr}
    (parsed : parse .standard false (some text) = .ok tree) (hdeep : 328 < tree.nesting) :
    AstOverflows world ["ast", "--", text] :=
  ⟨["--", text], ⟨[], [text]⟩, tree, ⟨nofun, ⟨[], ["ast", "--", text]⟩, rfl, rfl, rfl⟩,
    ⟨text, ⟨rfl, rfl, rfl⟩, parsed⟩, .inr ⟨tree, rfl, hdeep⟩⟩

/-- Signs that the parser reads with ease are too many to be shown. -/
theorem ast_overflows_signs : (run plainWorld ["ast", "--", signed 400]).Overflows := by
  obtain ⟨tree, parsed, hnesting⟩ :
      ∃ tree, parse .standard false (some (signed 400)) = .ok tree ∧
        decide (328 < tree.nesting) = true := by
    apply exists_ok_of_any
    rw [signed, parse_ofList]
    decide +kernel
  have hoverflows : AstOverflows plainWorld ["ast", "--", signed 400] :=
    astOverflows_of_parse parsed (of_decide_eq_true hnesting)
  exact overflows_run.mpr (.inr (.inl hoverflows))

end Formula
