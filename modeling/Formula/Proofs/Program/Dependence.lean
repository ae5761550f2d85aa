import Formula.Proofs.Eval.Dependence
import Formula.Proofs.Program.Compiled

namespace Formula

variable {σ : Type} {functions : String → Option (Callee σ)} {missing : String → Effect σ Value}

theorem codeAll_eq_of_store {store store' : Store} {room : Room} {es : List Expr}
    (each : ∀ e ∈ es, code ⟨store, functions, missing⟩ room e =
      code ⟨store', functions, missing⟩ room e) :
    codeAll ⟨store, functions, missing⟩ room es =
      codeAll ⟨store', functions, missing⟩ room es := by
  induction es with
  | nil => rfl
  | cons first rest ih =>
    obtain ⟨hfirst, hrest⟩ := List.forall_mem_cons.mp each
    rw [codeAll, codeAll, hfirst, ih hrest]

/-- Code has nothing of the variables in it. -/
theorem code_eq_of_store (store store' : Store) (room : Room) (e : Expr) :
    code ⟨store, functions, missing⟩ room e = code ⟨store', functions, missing⟩ room e := by
  induction e using Expr.inductionOn generalizing room with
  | number value | reference name | unknown => rfl
  | operation operator operands ih =>
    have hparts := fun inner => codeAll_eq_of_store fun e member => ih e member inner
    simp only [code, hparts]
  | assignment target value _ ih =>
    simp only [code, ih]
  | call name arguments ih =>
    have hparts := fun inner => codeAll_eq_of_store fun e member => ih e member inner
    simp only [code, hparts]
  | block statements ih =>
    have hparts := fun inner => codeAll_eq_of_store fun e member => ih e member inner
    simp only [code, hparts]

/-- Compiling at another moment gives the same program with other variables to start from. -/
theorem compile_of_store (functions : String → Option (Callee σ))
    (missing : String → Effect σ Value) (store store' : Store) (room : Room) (e : Expr) :
    compile ⟨store', functions, missing⟩ room e =
      (compile ⟨store, functions, missing⟩ room e).map fun program =>
        { program with defaults := store' } := by
  rw [compile, compile, code_eq_of_store store' store]
  cases code ⟨store, functions, missing⟩ room e <;> rfl

/-- A program lists the variables of its tree. -/
theorem mem_names_of_compile {snapshot : Snapshot σ} {room : Room} {e : Expr} {program : Program σ}
    (h : compile snapshot room e = .ok program) {name : String} :
    name ∈ program.names ↔ name ∈ e.variableNames := by
  unfold compile at h
  split at h
  next =>
    cases h
    exact Text.mem_sortedNames
  next => cases h

/-- A snapshot whose functions and handler write down what they are called with. -/
def Snapshot.recorded (snapshot : Snapshot σ) : Snapshot (Recorded σ) where
  store := snapshot.store
  functions name := (snapshot.functions name).map (Callee.recorded (.own name))
  missing name := (snapshot.missing name).recorded (.missed name)

/-- The calls of a compiled program are those among the acts of its tree. -/
theorem events_runFrame {snapshot : Snapshot σ} {room : Room} {e : Expr}
    {program : Program (Recorded σ)} (h : compile snapshot.recorded room e = .ok program)
    (overrides : Store) (host : σ) (events : List (Event σ)) :
    (program.runFrame overrides ⟨host, events⟩).2.host.events =
      events ++ (acts (snapshot.environment overrides) room e ⟨snapshot.store, host⟩).filterMap
        Act.event? := by
  have hshows :=
    (eval_shows (snapshot.environment overrides) room e).twin snapshot.store host events
  have hrecorded : (snapshot.environment overrides).recorded =
      snapshot.recorded.environment overrides := rfl
  rw [hrecorded] at hshows
  have hrun := runFrame_of_compile h overrides ⟨host, events⟩
  rw [hrun, evaluate, Effect.run_boundDepth]
  exact congrArg (fun run => run.2.host.events) hshows

/-- Evaluation depends only on the variables of the tree, and a compiled formula only on those that
it lists. If two pairs of overrides and variables look alike to the tree, then both evaluations have
the same result or fault, call the same functions and ask the handler for the same variables, all of
which stand in the tree; and they agree on everything that they assign. The same holds for the
programs that are compiled in the two cases, if there are any. In particular, the value of a
variable that is overridden does not matter. What is called and assigned can be told from what runs:
the acts of a tree account for its variables, and for the calls that its evaluation and its compiled
program make of functions and a handler that write them down. -/
theorem course_depends_on_variables (functions : String → Option (Callee σ))
    (missing : String → Effect σ Value) (room : Room) (e : Expr) (host : σ)
    (overrides overrides' store store' : Store) :
    let env (overrides : Store) : Environment σ := ⟨overrides, functions, missing⟩
    let trace (overrides store : Store) := acts (env overrides) room e ⟨store, host⟩
    let run (overrides store : Store) := (evaluate (env overrides) room e).run ⟨store, host⟩
    (LookAlike e.variableNames overrides overrides' store store' →
      SameCourse e.variableNames (trace overrides store) (trace overrides' store')
        (run overrides store) (run overrides' store')) ∧
    (∀ fault, compile ⟨store, functions, missing⟩ room e = .error fault →
      compile ⟨store', functions, missing⟩ room e = .error fault) ∧
    (∀ program, compile ⟨store, functions, missing⟩ room e = .ok program →
      ∃ program', compile ⟨store', functions, missing⟩ room e = .ok program' ∧
        program'.names = program.names ∧
        (LookAlike program.names overrides overrides' store store' →
          SameCourse program.names (trace overrides store) (trace overrides' store')
            (program.runFrame overrides host) (program'.runFrame overrides' host))) ∧
    (∀ name value, (overrides.get? name).isSome →
      SameCourse e.variableNames (trace overrides store) (trace overrides (store.set name value))
        (run overrides store) (run overrides (store.set name value))) ∧
    Run.Shows (eval (env overrides) room e) (acts (env overrides) room e)
      (eval (env overrides).recorded room e) ∧
    ∀ program, compile (Snapshot.recorded ⟨store, functions, missing⟩) room e = .ok program →
      (program.runFrame overrides ⟨host, []⟩).2.host.events =
        (trace overrides store).filterMap Act.event? := by
  intro env trace run
  have hcompile := compile_of_store functions missing store store' room e
  refine ⟨fun alike => evaluate_sameCourse alike room host, fun fault h => ?_, fun program h => ?_,
    fun name value hidden => ?_, eval_shows (env overrides) room e, fun program h => ?_⟩
  · rw [hcompile, h]
    rfl
  · have hother : compile ⟨store', functions, missing⟩ room e =
        .ok { program with defaults := store' } := by
      rw [hcompile, h]
      rfl
    refine ⟨_, hother, rfl, fun alike => ?_⟩
    have alike' := alike.mono fun _ member => (mem_names_of_compile h).mpr member
    have hcourse : SameCourse e.variableNames (trace overrides store) (trace overrides' store')
        (run overrides store) (run overrides' store') := evaluate_sameCourse alike' room host
    rw [runFrame_of_compile h, runFrame_of_compile hother]
    exact hcourse.congr_names fun _ member => (mem_names_of_compile h).mpr member
  · refine evaluate_sameCourse ⟨fun _ _ => rfl, fun other _ visible => ?_⟩ room host
    have hother : other ≠ name := by
      rintro rfl
      rw [visible] at hidden
      cases hidden
    rw [Store.get?_set, if_neg (by simpa using hother)]
  · exact events_runFrame h overrides host []

/-- The variables `y` differ, but `y` is overridden; the others do not stand in the tree. -/
theorem course_depends_on_variables_counting :
    let overrides := Store.ofList [("y", .int 5)]
    let overrides' := Store.ofList [("k", .int 7), ("y", .int 5)]
    let store := Store.ofList [("x", .int 1), ("y", .int 2)]
    let store' := Store.ofList [("y", .none), ("x", .int 1), ("z", .int 4)]
    let env : Environment Nat := ⟨overrides, countingSnapshot.functions, undefinedVariable⟩
    let env' : Environment Nat := ⟨overrides', countingSnapshot.functions, undefinedVariable⟩
    let trace := acts env .standard countingTree ⟨store, 0⟩
    LookAlike countingTree.variableNames overrides overrides' store store' ∧
      SameCourse countingTree.variableNames trace (acts env' .standard countingTree ⟨store', 0⟩)
        ((evaluate env .standard countingTree).run ⟨store, 0⟩)
        ((evaluate env' .standard countingTree).run ⟨store', 0⟩) ∧
      trace = [.called "count" [.int 1], .assigned "x" (.int 1)] ∧
      ((evaluate env .standard countingTree).run ⟨store, 0⟩).1 = .ok (.int 6) ∧
      (∃ program program',
        compile ⟨store, countingSnapshot.functions, undefinedVariable⟩ .standard countingTree =
          .ok program ∧
        compile ⟨store', countingSnapshot.functions, undefinedVariable⟩ .standard countingTree =
          .ok program' ∧
        SameCourse program.names trace (acts env' .standard countingTree ⟨store', 0⟩)
          (program.runFrame overrides 0) (program'.runFrame overrides' 0)) ∧
      ∃ program : Program (Recorded Nat),
        compile (Snapshot.recorded ⟨store, countingSnapshot.functions, undefinedVariable⟩) .standard
          countingTree = .ok program ∧
        (program.runFrame overrides ⟨0, []⟩).2.host.events = trace.filterMap Act.event? := by
  intro overrides overrides' store store' env env' trace
  have alike : LookAlike countingTree.variableNames overrides overrides' store store' :=
    ⟨by decide, by decide⟩
  obtain ⟨hcourse, -, hcompiled, -, -, hevents⟩ :=
    course_depends_on_variables countingSnapshot.functions undefinedVariable .standard
      countingTree 0 overrides overrides' store store'
  obtain ⟨program, hprogram, -⟩ := @exists_ok_of_any _ _
    (compile ⟨store, countingSnapshot.functions, undefinedVariable⟩ .standard countingTree)
    (fun _ => true) (by decide +kernel)
  obtain ⟨program', hprogram', -, hsame⟩ := hcompiled program hprogram
  have alike' := alike.mono fun _ member => (mem_names_of_compile hprogram).mp member
  obtain ⟨recorded, hrecorded, -⟩ := @exists_ok_of_any _ _
    (compile (Snapshot.recorded ⟨store, countingSnapshot.functions, undefinedVariable⟩) .standard
      countingTree) (fun _ => true) (by decide +kernel)
  exact ⟨alike, hcourse alike, by decide +kernel, by decide +kernel, ⟨program, program', hprogram,
    hprogram', hsame alike'⟩, recorded, hrecorded, hevents recorded hrecorded⟩

end Formula
