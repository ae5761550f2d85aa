import Formula.Program
import Formula.Fold
import Formula.Proofs.Effect

namespace Formula

variable {σ : Type} {env : Environment σ} {snapshot : Snapshot σ} {folding : Folding σ}

@[simp] theorem eval_number (value : Value) :
    eval env .unlimited (.number value) = pure value := rfl

theorem eval_operation (operator : Operator) (operands : List Expr) :
    eval env .unlimited (.operation operator operands) =
      evalAll env .unlimited operands >>= fun values => Effect.ofExcept (operator.apply values) :=
  rfl

theorem eval_call {name : String} {callee : Callee σ} (h : env.functions name = some callee)
    (arguments : List Expr) :
    eval env .unlimited (.call name arguments) =
      evalAll env .unlimited arguments >>= fun values => Run.ofHost (callee.call name values) := by
  rw [eval, h]
  rfl

theorem eval_call_unknown {name : String} (h : env.functions name = none) (arguments : List Expr) :
    eval env .unlimited (.call name arguments) = throw (.unknownFunction name) := by
  rw [eval, h]

theorem eval_block (statements : List Expr) :
    eval env .unlimited (.block statements) = evalStatements env .unlimited .none statements := rfl

theorem evalAll_append_singleton (es : List Expr) (e : Expr) :
    evalAll env .unlimited (es ++ [e]) =
      evalAll env .unlimited es >>= fun values =>
        eval env .unlimited e >>= fun value => pure (values ++ [value]) := by
  induction es with
  | nil => simp [evalAll]
  | cons first rest ih => simp [evalAll, ih, bind_assoc]

theorem code_operation (operator : Operator) (operands : List Expr) :
    code snapshot .unlimited (.operation operator operands) =
      codeAll snapshot .unlimited operands >>= (Code.ofOperation · operator) := rfl

theorem code_assignment {target : Expr} {name : String} (h : target.name? = some name)
    (value : Expr) :
    code snapshot .unlimited (.assignment target value) =
      code snapshot .unlimited value >>= fun valueCode =>
        .ok fun overrides => valueCode overrides >>= writeVariable name := by
  rw [code, h]
  rfl

theorem code_call {name : String} {callee : Callee σ} (h : snapshot.functions name = some callee)
    (arguments : List Expr) :
    code snapshot .unlimited (.call name arguments) =
      codeAll snapshot .unlimited arguments >>= fun parts =>
        .ok fun overrides => Code.runAll overrides parts >>= fun values =>
          Run.ofHost (callee.call name values) := by
  rw [code, h]
  rfl

theorem code_block (statements : List Expr) :
    code snapshot .unlimited (.block statements) =
      codeAll snapshot .unlimited statements >>= Code.ofBlock := rfl

theorem fold_operation (operator : Operator) (operands : List Expr) :
    fold folding .unlimited (.operation operator operands) =
      foldAll folding .unlimited operands >>= fun folded =>
        folding.foldNode (.operation operator folded) := rfl

theorem fold_call (name : String) (arguments : List Expr) :
    fold folding .unlimited (.call name arguments) =
      foldAll folding .unlimited arguments >>= fun folded =>
        if (folding.functions name).isNone then pure (.call name folded)
        else folding.foldNode (.call name folded) := rfl

theorem fold_block (statements : List Expr) :
    fold folding .unlimited (.block statements) =
      foldAll folding .unlimited statements >>= fun folded => folding.foldNode (.block folded) :=
  rfl

end Formula
