import Formula.Proofs.Eval.Depth
import Formula.Proofs.Number.One
import Formula.Proofs.Parser.Assignable
import Formula.Proofs.Parser.Chain

namespace Formula

open Formula.Parser Run

variable {σ : Type} {env : Environment σ} {level : Level} {es : List Expr} {e : Expr} {link : Link}

namespace Level

/-- What the links of a level do with the total before them: a remainder is taken of it, and
everything else is added to it or multiplied with it. -/
def apply : Level → TokenKind → Value → Value → Except Fault Value
  | sum, _ => Value.add
  | product, kind => if kind = .modulo then Value.remainder else Value.multiply

/-- What a link evaluates. -/
def part : Level → Link → Expr
  | sum, link => summand link.operator.kind link.operand
  | product, link =>
    if link.operator.kind = .divide then .operation .reciprocal [link.operand] else link.operand

theorem IsLink.isPlain_operand (h : level.IsLink link) :
    link.operand.Everywhere Expr.IsPlain := by
  have hplain := h.operand.isPlain
  cases level <;> exact hplain

/-- Evaluates a link behind the total of what stands before it. -/
def evalLink (level : Level) (env : Environment σ) (total : Value) (link : Link) : Run σ Value := do
  let value ← eval env .unlimited (level.part link)
  Effect.ofExcept (level.apply link.operator.kind total value)

/-- How values are gathered -/
def step : Level → Value → Value → Except Fault Value
  | sum => Value.add
  | product => Value.multiply

theorem apply_single (level : Level) (x : Float) :
    level.operator.apply [.float x] = .ok (.float x) := by
  cases level with
  | sum => rfl
  | product =>
    have hproduct : Value.multiply (.int 1) (.float x) = .ok (.float (Binary.one * x)) :=
      Value.combine_int_float Binary.ofInt?_one x
    rw [Binary.one_mul] at hproduct
    exact hproduct

theorem apply_append (level : Level) {values : List Value} (hsome : values ≠ []) (value : Value) :
    level.operator.apply (values ++ [value]) =
      level.operator.apply values >>= fun total => level.step total value := by
  cases level with
  | sum =>
    obtain ⟨first, rest, rfl⟩ := List.exists_cons_of_ne_nil hsome
    simp [operator, Operator.apply, Value.sum, step]
  | product => simp [operator, Operator.apply, Value.product, step]

theorem exists_total (level : Level) {values : List Value} (hsome : values ≠ [])
    (floats : ∀ value ∈ values, value.IsFloat) :
    ∃ total, level.operator.apply values = .ok (.float total) := by
  obtain ⟨first, rest, rfl⟩ := List.exists_cons_of_ne_nil hsome
  cases level with
  | sum => exact Value.exists_sum_floats floats
  | product => exact Value.exists_product_floats floats

theorem isPlain_tree (level : Level) (hsome : es ≠ []) (h : ∀ e ∈ es, e.Everywhere Expr.IsPlain) :
    (level.tree es).Everywhere Expr.IsPlain := by
  cases level with
  | sum =>
    rw [tree_sum]
    exact isPlain_sumOf hsome h
  | product =>
    rw [tree_product]
    exact isPlain_productOf hsome h

theorem isPlain_join (hsome : es ≠ []) (h : ∀ e ∈ es, e.Everywhere Expr.IsPlain)
    (hlink : link.operand.Everywhere Expr.IsPlain) :
    level.join es link ≠ [] ∧ ∀ e ∈ level.join es link, e.Everywhere Expr.IsPlain := by
  cases level with
  | sum =>
    exact ⟨by simp [join], List.forall_mem_append.mpr
      ⟨h, List.forall_mem_singleton.mpr (isPlain_summand hlink)⟩⟩
  | product => exact isPlain_withFactor hsome h hlink

theorem isPlain_foldl_join {links : List Link} (hsome : es ≠ [])
    (h : ∀ e ∈ es, e.Everywhere Expr.IsPlain) (hlinks : ∀ link ∈ links, level.IsLink link) :
    links.foldl level.join es ≠ [] ∧
      ∀ e ∈ links.foldl level.join es, e.Everywhere Expr.IsPlain := by
  induction links generalizing es with
  | nil => exact ⟨hsome, h⟩
  | cons link others ih =>
    obtain ⟨hlink, hothers⟩ := List.forall_mem_cons.mp hlinks
    obtain ⟨hsome', h'⟩ := isPlain_join hsome h hlink.isPlain_operand
    exact ih hsome' h' hothers

theorem isPlain_part (level : Level) (hlink : link.operand.Everywhere Expr.IsPlain) :
    (level.part link).Everywhere Expr.IsPlain := by
  cases level with
  | sum => exact isPlain_summand hlink
  | product =>
    rw [part]
    split
    next => exact isPlain_single (show Operator.reciprocal.Takes 1 from rfl) rfl hlink
    next => exact hlink

end Level

theorem eval_remainder (left right : Expr) :
    eval env .unlimited (.operation .remainder [left, right]) =
      eval env .unlimited left >>= fun dividend =>
        eval env .unlimited right >>= fun divisor =>
          Effect.ofExcept (dividend.remainder divisor) := by
  simp only [eval_operation, evalAll, bind_assoc, pure_bind]
  rfl

section Floats

variable (supplies : env.Supplies Value.IsFloat fun _ => True)
include supplies

theorem eval_keeps_floats (h : e.Everywhere Expr.IsPlain) :
    Keeps Value.IsFloat (fun _ => True) Value.IsFloat (eval env .unlimited e) :=
  eval_keeps supplies (fun _ _ => trivial) (h.mono Expr.inShape_of_isPlain)
    (h.mono Expr.isClosed_of_isPlain)

/-- A chain of one operand is that operand, which the operator by itself leaves as it is. -/
theorem eval_tree (level : Level) (hsome : es ≠ []) (h : ∀ e ∈ es, e.Everywhere Expr.IsPlain) :
    Same Value.IsFloat (eval env .unlimited (level.tree es))
      (evalAll env .unlimited es >>= fun values =>
        Effect.ofExcept (level.operator.apply values)) := by
  match es with
  | [e] =>
    have hkeeps := eval_keeps_floats supplies (h e (by simp))
    have hsame : Same Value.IsFloat (eval env .unlimited e >>= pure)
        (eval env .unlimited e >>= fun value =>
          Effect.ofExcept (level.operator.apply [value])) := by
      refine (Same.refl _).bind hkeeps fun value hvalue => ?_
      obtain ⟨x, rfl⟩ := Value.exists_of_isFloat hvalue
      rw [level.apply_single x]
      exact .refl _
    simpa [evalAll, Level.tree] using hsame
  | first :: second :: rest => exact .refl _

/-- The last operand of a chain is evaluated and applied last. -/
theorem eval_tree_append (level : Level) (hsome : es ≠ [])
    (h : ∀ e ∈ es, e.Everywhere Expr.IsPlain) (he : e.Everywhere Expr.IsPlain) :
    Same Value.IsFloat (eval env .unlimited (level.tree (es ++ [e])))
      (eval env .unlimited (level.tree es) >>= fun total =>
        eval env .unlimited e >>= fun value => Effect.ofExcept (level.step total value)) := by
  have hkeeps := evalAll_keeps fun e member => eval_keeps_floats supplies (h e member)
  have hlonger : ∀ other ∈ es ++ [e], other.Everywhere Expr.IsPlain :=
    List.forall_mem_append.mpr ⟨h, List.forall_mem_singleton.mpr he⟩
  have hleft : Same Value.IsFloat (eval env .unlimited (level.tree (es ++ [e])))
      (evalAll env .unlimited es >>= fun values => eval env .unlimited e >>= fun value =>
        Effect.ofExcept (level.operator.apply (values ++ [value]))) := by
    have htree := eval_tree supplies level (by simp) hlonger
    simpa only [evalAll_append_singleton, bind_assoc, pure_bind] using htree
  have hright : Same Value.IsFloat
      (eval env .unlimited (level.tree es) >>= fun total =>
        eval env .unlimited e >>= fun value => Effect.ofExcept (level.step total value))
      (evalAll env .unlimited es >>= fun values =>
        Effect.ofExcept (level.operator.apply values) >>= fun total =>
          eval env .unlimited e >>= fun value => Effect.ofExcept (level.step total value)) := by
    rw [← bind_assoc]
    exact (eval_tree supplies level hsome h).bind
      (eval_keeps_floats supplies (level.isPlain_tree hsome h)) fun _ _ => .refl _
  have hmiddle : Same Value.IsFloat
      (evalAll env .unlimited es >>= fun values => eval env .unlimited e >>= fun value =>
        Effect.ofExcept (level.operator.apply (values ++ [value])))
      (evalAll env .unlimited es >>= fun values =>
        Effect.ofExcept (level.operator.apply values) >>= fun total =>
          eval env .unlimited e >>= fun value => Effect.ofExcept (level.step total value)) := by
    refine (Same.refl _).bind hkeeps fun values hvalues => ?_
    have hne : values ≠ [] := by
      rintro rfl
      exact hsome (List.length_eq_zero_iff.mp hvalues.1.symm)
    obtain ⟨total, htotal⟩ := level.exists_total hne hvalues.2
    simp only [level.apply_append hne, htotal, Effect.ofExcept_ok, pure_bind]
    exact .refl _
  exact (hleft.trans hmiddle).trans hright.symm

/-- A link is evaluated and applied last. -/
theorem eval_join (hsome : es ≠ []) (h : ∀ e ∈ es, e.Everywhere Expr.IsPlain)
    (hlink : level.IsLink link) :
    Same Value.IsFloat (eval env .unlimited (level.tree (level.join es link)))
      (eval env .unlimited (level.tree es) >>= fun total => level.evalLink env total link) := by
  have hpart := level.isPlain_part hlink.isPlain_operand
  cases level with
  | sum => exact eval_tree_append supplies .sum hsome h hpart
  | product =>
    have hkind := hlink.operator
    simp only [Level.operators, List.mem_cons, List.not_mem_nil, or_false] at hkind
    have hlast := eval_tree_append supplies .product hsome h hpart
    rcases hkind with hkind | hkind | hkind
    · simpa [Level.join, withFactor, Level.evalLink, Level.part, Level.apply, Level.step, hkind]
        using hlast
    · simpa [Level.join, withFactor, Level.evalLink, Level.part, Level.apply, Level.step, hkind]
        using hlast
    · -- a remainder is a node of its own, which has the chain before it as its first operand
      have hjoin : Level.product.tree (Level.product.join es link) =
          .operation .remainder [Level.product.tree es, link.operand] := by
        rw [Level.tree_product es]
        simp [Level.join, withFactor, Level.tree, hkind]
      rw [hjoin, eval_remainder]
      simp only [Level.evalLink, Level.part, Level.apply, hkind, ↓reduceIte, reduceCtorEq]
      exact .refl _

/-- Chains are left associative: the links of a chain are evaluated one after the other, each behind
the total of what stands before it. -/
theorem eval_foldl_join {links : List Link} (hlinks : ∀ link ∈ links, level.IsLink link)
    (hsome : es ≠ []) (h : ∀ e ∈ es, e.Everywhere Expr.IsPlain) :
    Same Value.IsFloat (eval env .unlimited (level.tree (links.foldl level.join es)))
      (eval env .unlimited (level.tree es) >>= fun total =>
        links.foldlM (level.evalLink env) total) := by
  induction links generalizing es with
  | nil =>
    simp only [List.foldl_nil, List.foldlM_nil, bind_pure]
    exact .refl _
  | cons link others ih =>
    obtain ⟨hlink, hothers⟩ := List.forall_mem_cons.mp hlinks
    obtain ⟨hsome', h'⟩ := Level.isPlain_join hsome h hlink.isPlain_operand
    have hkeeps := eval_keeps_floats supplies (level.isPlain_tree hsome' h')
    have hfirst : Same Value.IsFloat
        (eval env .unlimited (level.tree (level.join es link)) >>= fun total =>
          others.foldlM (level.evalLink env) total)
        ((eval env .unlimited (level.tree es) >>= fun total => level.evalLink env total link) >>=
          fun total => others.foldlM (level.evalLink env) total) :=
      (eval_join supplies hsome h hlink).bind hkeeps fun _ _ => .refl _
    rw [bind_assoc] at hfirst
    simp only [List.foldl_cons, List.foldlM_cons]
    exact (ih hothers hsome' h').trans hfirst

end Floats

end Formula
