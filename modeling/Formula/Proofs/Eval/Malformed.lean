import Formula.Proofs.Eval.Closure
import Formula.Proofs.Program.Compiled
import Formula.Proofs.Value.Sums

namespace Formula

variable {σ : Type} {env : Environment σ} {snapshot : Snapshot σ} {room : Room} {e : Expr}
  {fault : Fault}

/-- Whether a fault is about the parts of a node: too few or too many of them, an operator or a node
that does not exist, or a target that is no variable. -/
def Fault.isMalformed : Fault → Bool
  | .missingOperand | .tooFewParts .. | .tooManyParts _ | .noParts | .unknownOperator _
  | .unknownNode | .badTarget _ => true
  | _ => false

theorem isMalformed_of_isAboutValues (h : fault.isAboutValues) : fault.isMalformed = false := by
  cases fault <;> first | rfl | cases h

/-- Whether a function or the handler ends with a fault for some arguments. -/
def Environment.Raises (env : Environment σ) (fault : Fault) : Prop :=
  (∃ name callee arguments host, env.functions name = some callee ∧
      ((callee.call name arguments).run host).1 = .error fault) ∨
    ∃ name host, ((env.missing name).run host).1 = .error fault

/-- Whether a fault, if it is about the parts of a node, comes from a function or the handler. -/
def Environment.Excuses (env : Environment σ) (fault : Fault) : Prop :=
  fault.isMalformed → env.Raises fault

theorem supplies_excuses (env : Environment σ) :
    env.Supplies (fun _ => True) env.Excuses where
  overrides _ _ _ := trivial
  functions name callee found arguments _ host := by
    cases hresult : ((callee.call name arguments).run host).1 with
    | ok value => trivial
    | error fault => exact fun _ => .inl ⟨name, callee, arguments, host, found, hresult⟩
  missing name host := by
    cases hresult : ((env.missing name).run host).1 with
    | ok value => trivial
    | error fault => exact fun _ => .inr ⟨name, host, hresult⟩

theorem leads_excuses (env : Environment σ) :
    ∀ node : Expr, node.InShape → node.Leads (fun _ => True) env.Excuses
  | .operation operator _, _ => fun values takes _ => by
    cases hresult : operator.apply values with
    | ok value => trivial
    | error fault =>
      intro malformed
      rw [isMalformed_of_isAboutValues (Operator.apply_aboutValues takes hresult)] at malformed
      cases malformed
  | .number _, _ | .variable _, _ | .assignment .., _ | .call .., _ | .block _, _ => trivial

theorem isMalformed_outermost (h : (Effect.outermost fault).isMalformed) :
    Effect.outermost fault = fault := by
  unfold Effect.outermost at h ⊢
  split at h
  next => cases h
  next hkind => rw [if_neg hkind]

/-- Evaluating a tree in shape finds no fault with the parts of its nodes. -/
theorem raises_of_evaluate {frame : Frame σ} (shape : e.Everywhere Expr.InShape)
    (h : ((evaluate env room e).run frame).1 = .error fault) (malformed : fault.isMalformed) :
    env.Raises fault := by
  have hroom : room = .unlimited ∨ env.Excuses .stackExhausted := .inr nofun
  have hkeeps := eval_keeps_within (supplies_excuses env) (fun _ => nofun) shape
    (shape.mono (leads_excuses env)) hroom
  obtain ⟨hresult, -⟩ := hkeeps frame fun _ _ _ => trivial
  rw [evaluate, Effect.run_boundDepth] at h
  cases hrun : ((eval env room e).run frame).1 with
  | ok value =>
    rw [hrun] at h
    cases h
  | error cause =>
    rw [hrun] at h hresult
    cases h
    have hsame := isMalformed_outermost malformed
    rw [hsame] at malformed ⊢
    exact hresult malformed

theorem raises_of_runFrame {program : Program σ} {overrides : Store} {host : σ}
    (shape : e.Everywhere Expr.InShape) (compiled : compile snapshot room e = .ok program)
    (h : (program.runFrame overrides host).1 = .error fault) (malformed : fault.isMalformed) :
    (snapshot.environment overrides).Raises fault := by
  rw [runFrame_of_compile compiled] at h
  exact raises_of_evaluate shape h malformed

end Formula
