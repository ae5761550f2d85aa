import Formula.Proofs.Eval.Statements
import Formula.Proofs.Session.Steps

namespace Formula

open Formula.Expr

variable {σ : Type}

namespace Expr

theorem isReadOnly_of_isPlain : ∀ node : Expr, node.IsPlain → node.IsReadOnly
  | .number _, _ | .variable _, _ | .operation .., _ | .call .., _ => nofun

theorem IsStatement.isAtomic {e : Expr} (h : e.IsStatement) : e.IsAtomic := by
  rcases h with hplain | ⟨name, value, rfl, hvalue⟩
  · exact .inl (hplain.mono isReadOnly_of_isPlain)
  · exact .inr ⟨.variable name, value, rfl, hvalue.mono isReadOnly_of_isPlain⟩

theorem IsProgram.isAtomic {e : Expr} (h : e.IsProgram) :
    ∀ statement ∈ e.statements, statement.IsAtomic := by
  rcases h with hstatement | ⟨statements, rfl, -, hstatements⟩
  · exact hstatement.isAtomic.statements
  · exact fun statement member => (hstatements statement member).isAtomic

theorem acceptsFolded_isReadOnly : AcceptsFolded IsReadOnly := by
  intro node member
  cases node <;> simp [kind, IsReadOnly] at member ⊢

end Expr

namespace Folding

variable {folding : Folding σ} {e folded : Expr}

theorem Yields.isAtomic (atomic : e.IsAtomic) (yields : folding.Yields e folded) :
    folded.IsAtomic := by
  rcases atomic with reads | ⟨target, value, rfl, reads⟩
  · exact .inl (yields.everywhere acceptsFolded_isReadOnly reads)
  · exact .inr ⟨target, value, yields.eq_of_assignment, reads⟩

/-- Folding, with whatever functions, moves no assignment into a statement. -/
theorem Yields.statements (atomic : ∀ statement ∈ e.statements, statement.IsAtomic)
    (yields : folding.Yields e folded) :
    ∀ statement ∈ folded.statements, statement.IsAtomic := by
  by_cases hkind : e.kind = .block
  · cases e with
    | block es =>
      obtain ⟨parts, host, after, hparts, hnode⟩ := yields.block
      have hatomic : ∀ part ∈ parts, part.IsAtomic :=
        forall_parts hparts atomic fun e _ _ h hyields => hyields.isAtomic h
      have hfolded : folded = .block parts ∨ folded.isNumber = true := by
        rcases foldNode_cases hnode with ⟨-, hconstant⟩ | ⟨-, rfl, -⟩ | ⟨_, _, _, _, heq, _⟩
        · exact eq_or_isNumber_of_evaluateConstant hconstant
        · exact .inl rfl
        · cases heq
      rcases hfolded with rfl | hnumber
      · exact hatomic
      · exact IsAtomic.statements
          (.inl (acceptsFolded_isReadOnly.everywhere_of_isNumber hnumber))
    | _ => cases hkind
  · rw [statements_of_kind_ne_block hkind, List.forall_mem_singleton] at atomic
    exact (yields.isAtomic atomic).statements

end Folding

/-- Whether all statements of what a calculator holds are atomic. -/
def Calculator.HoldsAtomic (calculator : Calculator σ) : Prop :=
  ∀ tree, calculator.tree = some tree → ∀ statement ∈ tree.statements, statement.IsAtomic

namespace Session

variable [Journal σ] {session : Session σ} {made : Calculator σ}

/-- What holds of all calculators of a session holds of them after any steps if every step can only
make calculators of which it holds. -/
theorem forall_calculator_run {P : Calculator σ → Prop} {steps : List (Step σ)}
    (hmakes : ∀ (session : Session σ) (step : Step σ) (made : Calculator σ),
      (∀ name calculator, session.calculator? name = some calculator → P calculator) →
        session.Makes step made → P made)
    (h : ∀ name calculator, session.calculator? name = some calculator → P calculator) :
    ∀ name calculator, (session.run steps).calculator? name = some calculator → P calculator := by
  induction steps generalizing session with
  | nil => exact h
  | cons step steps ih =>
    refine ih fun name calculator found => ?_
    rcases (step_after session step).calculators name calculator found with found | made
    · exact h name calculator found
    · exact hmakes session step calculator h made

theorem holdsAtomic_of_makes {step : Step σ}
    (h : ∀ name calculator, session.calculator? name = some calculator → calculator.HoldsAtomic)
    (hmakes : session.Makes step made) : made.HoldsAtomic := by
  have hparsed : ∀ {before made : Calculator σ} {source : Option String},
      before.parse source = .ok made → made.HoldsAtomic := by
    intro before made source hparse
    obtain ⟨tree, htree, rfl⟩ := Calculator.exists_of_parse hparse
    rintro _ ⟨⟩
    exact (isProgram_of_parse htree).isAtomic
  cases hmakes with
  | create hcreate =>
    rcases Calculator.eq_of_create hcreate with rfl | hparse
    · exact nofun
    · exact hparsed hparse
  | parse _ hparse => exact hparsed hparse
  | @evaluate name overrides before hbefore =>
    have hholds := h name before hbefore
    obtain ⟨store, heq⟩ := before.exists_of_evaluate session.registry overrides session.host
    rw [heq]
    exact hholds
  | optimize hbefore hrun =>
    obtain ⟨tree, folded, htree, yields, rfl⟩ := Calculator.exists_of_optimize hrun
    rintro _ ⟨⟩
    exact yields.statements (h _ _ hbefore tree htree)
  | register hbefore | setHandler hbefore | setVariable hbefore | deleteVariable hbefore =>
    have hholds := h _ _ hbefore
    exact hholds

/-- Whatever steps a session takes, with whatever functions. -/
theorem holdsAtomic_of_run (host : σ) (steps : List (Step σ)) {name : String}
    {calculator : Calculator σ}
    (found : ((standard host).run steps).calculator? name = some calculator) :
    calculator.HoldsAtomic :=
  forall_calculator_run (fun _ _ _ => holdsAtomic_of_makes) (fun _ _ found => by cases found) name
    calculator found

end Session

/-- The room for the statements of a tree that is evaluated in the given room. -/
def Expr.roomForStatements? (room : Room) : Expr → Option Room
  | .block _ => room.enter? price.evaluation
  | _ => some room

/-- How far the statements of a tree get. Those that are done succeed in a program of their own as
they do here, and no other variables than their targets can differ behind them. The whole tree
leaves the variables as they do: it ends there, or the next statement fails. -/
structure Progress (env : Environment σ) (room : Room) (tree : Expr) (start : Frame σ)
    (done : List Expr) (between : Frame σ) (result : Except Fault Value) (host : σ) : Prop where
  alone : ∃ value, (evaluate env room (.ofStatements done)).run start = (.ok value, between)
  targets : ∀ name, between.store.get? name ≠ start.store.get? name →
    ∃ statement ∈ done, statement.target? = some name
  success : ∀ value, result = .ok value → done = tree.statements ∧ host = between.host
  failure : ∀ fault, result = .error fault → ∃ failing rest inside cause,
    tree.statements = done ++ failing :: rest ∧ tree.roomForStatements? room = some inside ∧
      (eval env inside failing).run between = (.error cause, ⟨between.store, host⟩) ∧
        fault = Effect.outermost cause

section Progress

variable {env : Environment σ} {room inner inside : Room} {tree : Expr} {start between : Frame σ}
  {value : Value} {done later : List Expr}

theorem eval_eq_evalStatements (h : tree.roomForStatements? room = some inside) :
    eval env room tree = evalStatements env inside .none tree.statements := by
  cases tree with
  | block statements =>
    have hinside : room.enter? price.evaluation = some inside := h
    rw [eval, Effect.descend, hinside]
    rfl
  | _ =>
    cases h
    exact (bind_pure _).symm

/-- The first statements of a tree do by themselves what they do in it. -/
theorem evaluate_done (hinner : room.enter? price.evaluation = some inner)
    (hinside : tree.roomForStatements? room = some inside)
    (hdivided : tree.statements = done ++ later)
    (hdone : (evalStatements env inside .none done).run start = (.ok value, between)) :
    (evaluate env room (.ofStatements done)).run start = (.ok value, between) := by
  by_cases hkind : tree.kind = .block
  · cases tree with
    | block statements => exact evaluate_ofStatements hinside hdone
    | _ => cases hkind
  · rw [statements_of_kind_ne_block hkind] at hdivided
    match done, hdivided with
    | [], _ => exact evaluate_ofStatements hinner hdone
    | [statement], hdivided =>
      have hroom : inside = room := by
        cases tree with
        | block statements => exact absurd rfl hkind
        | _ => exact (Option.some.inj hinside).symm
      rw [ofStatements, evaluate, Effect.run_boundDepth]
      rw [hroom, evalStatements] at hdone
      obtain ⟨result, after, hrun, hdone⟩ := Effect.exists_of_run_bind hdone
      cases hdone
      rw [hrun]
      rfl

/-- Evaluation of atomic statements gets to the end, or to one of them. -/
theorem exists_progress (env : Environment σ) (room : Room)
    (hinner : room.enter? price.evaluation = some inner)
    (atomic : ∀ statement ∈ tree.statements, statement.IsAtomic) (start : Frame σ) :
    ∃ done between result host, done <+: tree.statements ∧
      (evaluate env room tree).run start = (result, ⟨between.store, host⟩) ∧
        Progress env room tree start done between result host := by
  obtain ⟨inside, hinside⟩ : ∃ inside, tree.roomForStatements? room = some inside := by
    cases tree with
    | block statements => exact ⟨inner, hinner⟩
    | _ => exact ⟨room, rfl⟩
  obtain ⟨done, later, value, between, hdivided, hdone, hlater⟩ :=
    evalStatements_stops env inside .none tree.statements start
  have halone := evaluate_done hinner hinside hdivided hdone
  rw [hdivided] at atomic
  obtain ⟨hatomic, hothers⟩ := List.forall_mem_append.mp atomic
  have htargets : ∀ name, between.store.get? name ≠ start.store.get? name →
      ∃ statement ∈ done, statement.target? = some name := fun _ =>
    get?_evalStatements hatomic hdone
  rw [evaluate, eval_eq_evalStatements hinside, Effect.run_boundDepth]
  refine ⟨done, between, ?_⟩
  rcases hlater with ⟨rfl, hrun⟩ | ⟨failing, rest, cause, after, rfl, hfails, hrun⟩
  · rw [hrun]
    rw [List.append_nil] at hdivided
    refine ⟨.ok value, between.host, ⟨[], by simp [hdivided]⟩, rfl, ⟨value, halone⟩, htargets,
      fun _ _ => ⟨hdivided.symm, rfl⟩, ?_⟩
    rintro fault ⟨⟩
  · have hstore : after.store = between.store := by
      have hchanged :=
        store_eval_of_isAtomic env inside (hothers failing List.mem_cons_self) between
      rw [hfails] at hchanged
      rcases hchanged with hsame | ⟨_, _, _, _, hok, _⟩
      · exact hsame
      · cases hok
    rw [hrun, ← hstore]
    refine ⟨.error (Effect.outermost cause), after.host, ⟨failing :: rest, hdivided.symm⟩, rfl,
      ⟨value, halone⟩, htargets, ?_, ?_⟩
    · rintro other ⟨⟩
    · rintro fault ⟨⟩
      exact ⟨failing, rest, inside, cause, hdivided, hinside, by rw [hfails, ← hstore], rfl⟩

end Progress

/-- Whatever steps have led to a calculator with a formula, evaluating it changes nothing but the
variables, and of those at most the targets of the statements that are done. If a statement fails,
the variables are what the statements before it leave behind by themselves. -/
theorem evaluate_changes_done [Journal σ] (host : σ) (steps : List (Step σ)) {name : String}
    {calculator : Calculator σ} {tree : Expr}
    (found : ((Session.standard host).run steps).calculator? name = some calculator)
    (holds : calculator.tree = some tree) (registry : Registry σ) (overrides : Store)
    (before : σ) :
    ∃ done between result after, done <+: tree.statements ∧
      calculator.evaluate registry overrides before =
        (result, { calculator with store := between.store }, after) ∧
      Progress (calculator.environment registry overrides) .standard tree
        ⟨calculator.store, before⟩ done between result after := by
  have atomic := Session.holdsAtomic_of_run host steps found tree holds
  obtain ⟨done, between, result, after, hprefix, hrun, hprogress⟩ :=
    exists_progress (calculator.environment registry overrides) .standard rfl atomic
      ⟨calculator.store, before⟩
  have hevaluate : calculator.evaluate registry overrides before =
      let outcome := (evaluate (calculator.environment registry overrides) .standard tree).run
        ⟨calculator.store, before⟩
      (outcome.1, { calculator with store := outcome.2.store }, outcome.2.host) := by
    rw [Calculator.evaluate, Calculator.requireTree, holds]
  rw [hrun] at hevaluate
  exact ⟨done, between, result, after, hprefix, hevaluate, hprogress⟩

/-- Steps that leave a folded formula whose third statement fails behind a call. -/
def brittleSteps : List (Step Unit) :=
  [.create "curve" (some "x = 2 * 3; y = x + a; z = floor(y) % 0; a = 1") .null,
    .setVariable "curve" "z" (.int 7), .optimize "curve"]

theorem evaluate_changes_done_brittle :
    ∃ calculator tree,
      ((Session.standard ()).run brittleSteps).calculator? "curve" = some calculator ∧
      calculator.tree = some tree ∧
      ∃ done between fault, done <+: tree.statements ∧
        calculator.evaluate .standard (.ofList [("a", .int 4)]) () =
          (.error fault, { calculator with store := between.store }, ()) ∧
        between.store = .ofList [("z", .int 7), ("x", .float 6), ("y", .float 10)] ∧
        Progress (calculator.environment .standard (.ofList [("a", .int 4)])) .standard tree
          ⟨calculator.store, ()⟩ done between (.error fault) () := by
  have hany : (((Session.standard ()).run brittleSteps).calculator? "curve").any (fun calculator =>
      calculator.tree.isSome &&
        (!(calculator.evaluate .standard (.ofList [("a", .int 4)]) ()).1.toBool &&
          (calculator.evaluate .standard (.ofList [("a", .int 4)]) ()).2.1.store ==
            .ofList [("z", .int 7), ("x", .float 6), ("y", .float 10)])) = true := by
    decide +kernel
  obtain ⟨calculator, found, hchecked⟩ := (Option.any_eq_true _ _).mp hany
  rw [Bool.and_eq_true, Bool.and_eq_true] at hchecked
  obtain ⟨hsome, hfails, hstore⟩ := hchecked
  obtain ⟨tree, holds⟩ := Option.isSome_iff_exists.mp hsome
  obtain ⟨done, between, result, ⟨⟩, hprefix, hevaluate, hprogress⟩ :=
    evaluate_changes_done () brittleSteps found holds .standard (.ofList [("a", .int 4)]) ()
  rw [hevaluate] at hfails hstore
  cases result with
  | ok value => cases hfails
  | error fault =>
    exact ⟨calculator, tree, found, holds, done, between, fault, hprefix, hevaluate,
      eq_of_beq hstore, hprogress⟩

end Formula
