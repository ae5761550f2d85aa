import Formula.Proofs.Parser.Reads
import Formula.Proofs.Value.Floats

namespace Formula

namespace Expr

/-- Whether a node may stand in an operand: no assignment and no block, and a sum or product only
with several operands. -/
def IsPlain : Expr → Prop
  | .number value => value.IsFloat
  | .variable _ | .call .. => True
  | .operation operator operands =>
    operator.Takes operands.length ∧ (operator.isCommutative → 2 ≤ operands.length)
  | .assignment .. | .block _ | .unknown => False

/-- Whether a tree is a statement: an operand, or its assignment to a variable. -/
def IsStatement (e : Expr) : Prop :=
  e.Everywhere IsPlain ∨
    ∃ name value, e = .assignment (.variable name) value ∧ value.Everywhere IsPlain

/-- Whether a tree is a program: one statement, or a block of several. -/
def IsProgram (e : Expr) : Prop :=
  e.IsStatement ∨
    ∃ statements, e = .block statements ∧ 2 ≤ statements.length ∧ ∀ e ∈ statements, e.IsStatement

end Expr

open Formula.Expr

namespace Parser

/-- What holds of the trees that a step reads; those of a chain it may rely on. -/
def Reading.IsPlain : Reading → Prop
  | .sum e | .product e | .unary e | .power e | .primary e => e.Everywhere Expr.IsPlain
  | .sumRest operands e | .productRest operands e =>
    operands ≠ [] → (∀ operand ∈ operands, operand.Everywhere Expr.IsPlain) →
      e.Everywhere Expr.IsPlain
  | .arguments es | .argumentsRest es => ∀ e ∈ es, e.Everywhere Expr.IsPlain

theorem isPlain_chain {operator : Operator} {operands : List Expr}
    (commutes : operator.isCommutative) (hmany : 2 ≤ operands.length)
    (h : ∀ operand ∈ operands, operand.Everywhere Expr.IsPlain) :
    (Expr.operation operator operands).Everywhere Expr.IsPlain := by
  rw [everywhere_operation]
  refine ⟨⟨?_, fun _ => hmany⟩, h⟩
  cases operator with
  | add | multiply =>
    show 1 ≤ operands.length
    omega
  | _ => simp [Operator.isCommutative] at commutes

theorem isPlain_sumOf {operands : List Expr} (hsome : operands ≠ [])
    (h : ∀ operand ∈ operands, operand.Everywhere Expr.IsPlain) :
    (sumOf operands).Everywhere Expr.IsPlain := by
  match operands with
  | [] => exact absurd rfl hsome
  | [operand] => exact h operand (by simp)
  | first :: second :: rest => exact isPlain_chain rfl (by simp) h

theorem isPlain_productOf {factors : List Expr} (hsome : factors ≠ [])
    (h : ∀ factor ∈ factors, factor.Everywhere Expr.IsPlain) :
    (productOf factors).Everywhere Expr.IsPlain := by
  match factors with
  | [] => exact absurd rfl hsome
  | [factor] => exact h factor (by simp)
  | first :: second :: rest => exact isPlain_chain rfl (by simp) h

theorem isPlain_single {operator : Operator} {e : Expr} (takes : operator.Takes 1)
    (fixed : operator.isCommutative = false) (h : e.Everywhere Expr.IsPlain) :
    (Expr.operation operator [e]).Everywhere Expr.IsPlain := by
  rw [everywhere_operation]
  exact ⟨⟨takes, fun commutes => by simp [fixed] at commutes⟩, by simpa using h⟩

theorem isPlain_pair {operator : Operator} {left right : Expr} (takes : operator.Takes 2)
    (hleft : left.Everywhere Expr.IsPlain) (hright : right.Everywhere Expr.IsPlain) :
    (Expr.operation operator [left, right]).Everywhere Expr.IsPlain := by
  rw [everywhere_operation]
  exact ⟨⟨takes, fun _ => Nat.le_refl 2⟩, by simp [hleft, hright]⟩

theorem isPlain_summand {sign : TokenKind} {e : Expr} (h : e.Everywhere Expr.IsPlain) :
    (summand sign e).Everywhere Expr.IsPlain := by
  unfold summand
  split
  next => exact isPlain_single rfl rfl h
  next => exact h

theorem isPlain_withFactor {factors : List Expr} {operator : TokenKind} {e : Expr}
    (hsome : factors ≠ []) (hfactors : ∀ factor ∈ factors, factor.Everywhere Expr.IsPlain)
    (h : e.Everywhere Expr.IsPlain) :
    withFactor factors operator e ≠ [] ∧
      ∀ factor ∈ withFactor factors operator e, factor.Everywhere Expr.IsPlain := by
  unfold withFactor
  split
  next => exact ⟨by simp, List.forall_mem_append.mpr ⟨hfactors, by simpa using h⟩⟩
  next =>
    split
    next =>
      have hreciprocal := isPlain_single (show Operator.reciprocal.Takes 1 by rfl) rfl h
      exact ⟨by simp, List.forall_mem_append.mpr ⟨hfactors, by simpa using hreciprocal⟩⟩
    next =>
      have hremainder := isPlain_pair (show Operator.remainder.Takes 2 by rfl)
        (isPlain_productOf hsome hfactors) h
      exact ⟨by simp, by simpa using hremainder⟩

theorem Reads.isPlain {reading : Reading} {start stop : Cursor} (h : Reads reading start stop) :
    reading.IsPlain := by
  induction h with
  | sum _ _ ihFirst ihRest => exact ihRest (by simp) (List.forall_mem_singleton.mpr ihFirst)
  | summand _ _ _ _ ihOperand ihRest =>
    intro hsome hoperands
    refine ihRest (by simp) (List.forall_mem_append.mpr ⟨hoperands, ?_⟩)
    simpa using isPlain_summand ihOperand
  | sumEnd _ => exact isPlain_sumOf
  | product _ _ ihFirst ihRest => exact ihRest (by simp) (List.forall_mem_singleton.mpr ihFirst)
  | factor _ _ _ _ ihOperand ihRest =>
    intro hsome hfactors
    obtain ⟨hsome', hfactors'⟩ := isPlain_withFactor hsome hfactors ihOperand
    exact ihRest hsome' hfactors'
  | productEnd _ => exact isPlain_productOf
  | sign _ _ _ _ ih => exact isPlain_summand ih
  | unsigned _ _ ih => exact ih
  | raised _ _ _ ihBase ihExponent => exact isPlain_pair rfl ihBase ihExponent
  | unraised _ _ ih => exact ih
  | number => exact everywhere_number.mpr trivial
  | reference => exact everywhere_variable.mpr trivial
  | call _ _ _ _ _ ih => exact everywhere_call.mpr ⟨trivial, ih⟩
  | parenthesis _ _ _ _ ih => exact ih
  | noArguments _ => exact fun e member => by simp at member
  | arguments _ _ _ ihFirst ihRest => exact List.forall_mem_cons.mpr ⟨ihFirst, ihRest⟩
  | argument _ _ _ ihFirst ihRest => exact List.forall_mem_cons.mpr ⟨ihFirst, ihRest⟩
  | argumentsEnd _ => exact fun e member => by simp at member

theorem ReadsStatement.isStatement {e : Expr} {start stop : Cursor}
    (h : ReadsStatement e start stop) : e.IsStatement := by
  cases h with
  | plain hsum _ => exact .inl hsum.isPlain
  | @assignment target value _ _ _ _ _ _ hname hvalue =>
    cases target with
    | «variable» name => exact .inr ⟨name, value, rfl, hvalue.isPlain⟩
    | _ => simp [name?] at hname

theorem ReadsStatements.areStatements {force separated : Bool} {es : List Expr} {start : Cursor}
    (h : ReadsStatements force separated es start) : ∀ e ∈ es, e.IsStatement := by
  induction h with
  | semicolon _ _ ih => exact ih
  | none _ _ => simp
  | statement _ _ _ hfirst _ _ ih => exact List.forall_mem_cons.mpr ⟨hfirst.isStatement, ih⟩

end Parser

variable {room : Room} {force : Bool} {text : Option String} {e : Expr}

/-- Every parsed tree is a program. -/
theorem isProgram_of_parse (h : parse room force text = .ok e) : e.IsProgram := by
  unfold parse at h
  split at h
  next => cases h
  next source =>
    obtain ⟨tokens, -, h⟩ := exists_of_bind_eq_ok h
    unfold parseTokens at h
    cases hprogram : Parser.program room force (.ofTokens source tokens) with
    | error fault =>
      rw [hprogram] at h
      cases h
    | ok tree =>
      rw [hprogram] at h
      cases h
      obtain ⟨es, hes, rfl | ⟨rfl, hmany⟩⟩ := Parser.readsStatements_of_program hprogram
      · exact .inl (hes.areStatements e (by simp))
      · exact .inr ⟨es, rfl, hmany, hes.areStatements⟩

namespace Expr

theorem inShape_of_isPlain : ∀ node : Expr, node.IsPlain → node.InShape
  | .operation _ _, h => h.1
  | .number _, _ | .variable _, _ | .call .., _ => trivial

theorem isClosed_of_isPlain : ∀ node : Expr, node.IsPlain → node.IsClosed Value.IsFloat
  | .operation operator _, _ => operator.isClosed_floats
  | .number _, h => h
  | .variable _, _ | .call .., _ => trivial

/-- What holds of operands, of variables, of assignments to them and of blocks with statements holds
everywhere in a program. -/
theorem IsProgram.everywhere {P : Expr → Prop} (h : e.IsProgram)
    (plain : ∀ node : Expr, node.IsPlain → P node)
    (assignment : ∀ name value, P (.assignment (.variable name) value))
    (block : ∀ statements, statements ≠ [] → P (.block statements)) : e.Everywhere P := by
  have statement (e : Expr) (he : e.IsStatement) : e.Everywhere P := by
    rcases he with he | ⟨name, value, rfl, hvalue⟩
    · exact he.mono plain
    · exact everywhere_assignment.mpr ⟨assignment name value,
        everywhere_variable.mpr (plain _ trivial), hvalue.mono plain⟩
  rcases h with h | ⟨statements, rfl, hmany, h⟩
  · exact statement e h
  · refine everywhere_block.mpr ⟨block statements ?_, fun e member => statement e (h e member)⟩
    rintro rfl
    simp at hmany

theorem IsProgram.inShape (h : e.IsProgram) : e.Everywhere InShape :=
  h.everywhere inShape_of_isPlain (fun _ _ => rfl) fun _ nonempty => nonempty

theorem IsProgram.isClosed (h : e.IsProgram) : e.Everywhere (IsClosed Value.IsFloat) :=
  h.everywhere isClosed_of_isPlain (fun _ _ => trivial) fun _ _ => trivial

end Expr

end Formula
