import Formula.Proofs.Fold.Exact
import Formula.Proofs.Fold.Height

namespace Formula

open Formula.Expr

variable {σ : Type} {table : PureTable} {name : String} {env : Environment σ}
  {folding : Folding σ}

/-- A table with one name taken out. -/
def PureTable.without (table : PureTable) (name : String) : PureTable :=
  fun other => if other = name then none else table other

namespace PureTable

theorem without_self : table.without name name = none := if_pos rfl

theorem without_of_ne {other : String} (h : other ≠ name) :
    table.without name other = table other := if_neg h

end PureTable

namespace Expr

mutual

/-- Replaces the calls of one function that have a value over a table by that value. What is inside
of assignments stays. -/
def settle (table : PureTable) (name : String) : Expr → Expr
  | .operation operator operands => .operation operator (settleAll table name operands)
  | .call other arguments =>
    if other = name then
      match constant? table (.call other arguments) with
      | some value => .number value
      | none => .call other (settleAll table name arguments)
    else .call other (settleAll table name arguments)
  | .block statements => .block (settleAll table name statements)
  | .number value => .number value
  | .variable other => .variable other
  | .assignment target value => .assignment target value
  | .unknown => .unknown

def settleAll (table : PureTable) (name : String) : List Expr → List Expr
  | [] => []
  | first :: rest => first.settle table name :: settleAll table name rest

end

theorem settle_call_of_ne {other : String} (h : other ≠ name) (arguments : List Expr) :
    (call other arguments).settle table name = .call other (settleAll table name arguments) := by
  rw [settle, if_neg h]

theorem settle_call_of_some {arguments : List Expr} {value : Value}
    (h : (call name arguments).constant? table = some value) :
    (call name arguments).settle table name = .number value := by
  rw [settle, if_pos rfl, h]

theorem settle_call_of_none {arguments : List Expr}
    (h : (call name arguments).constant? table = none) :
    (call name arguments).settle table name = .call name (settleAll table name arguments) := by
  rw [settle, if_pos rfl, h]

theorem constants?_settleAll {es : List Expr}
    (each : ∀ e ∈ es, (e.settle table name).constant? (table.without name) = e.constant? table) :
    constants? (table.without name) (settleAll table name es) = constants? table es := by
  induction es with
  | nil => rfl
  | cons first rest ih =>
    obtain ⟨hfirst, hrest⟩ := List.forall_mem_cons.mp each
    rw [settleAll, constants?, constants?, hfirst, ih hrest]

/-- A settled tree has the constants of the tree without the function. -/
theorem constant?_settle (e : Expr) :
    (e.settle table name).constant? (table.without name) = e.constant? table := by
  induction e using Expr.inductionOn with
  | number value | reference other | assignment target value | unknown => rfl
  | operation operator operands ih | block operands ih =>
    rw [settle, constant?, constant?, constants?_settleAll ih]
  | call other arguments ih =>
    by_cases hother : other = name
    · subst hother
      cases hvalue : (call other arguments).constant? table with
      | some value => rw [settle_call_of_some hvalue, constant?]
      | none =>
        rw [settle_call_of_none hvalue, constant?, PureTable.without_self]
        rfl
    · rw [settle_call_of_ne hother, constant?, constant?, PureTable.without_of_ne hother,
        constants?_settleAll ih]

theorem settleAll_eq_self {es : List Expr} (each : ∀ e ∈ es, e.settle table name = e) :
    settleAll table name es = es := by
  induction es with
  | nil => rfl
  | cons first rest ih =>
    obtain ⟨hfirst, hrest⟩ := List.forall_mem_cons.mp each
    rw [settleAll, hfirst, ih hrest]

/-- Where no call of the function has a value, there is nothing to settle. -/
theorem settle_eq_self {e : Expr}
    (h : ∀ arguments, .call name arguments ∈ e.outerNodes →
      (call name arguments).constant? table = none) : e.settle table name = e := by
  have parts : ∀ {node : Expr} {es : List Expr}, node.outerNodes = node :: outerNodesOf es →
      (∀ arguments, .call name arguments ∈ node.outerNodes →
        (call name arguments).constant? table = none) →
      ∀ e ∈ es, ∀ arguments, .call name arguments ∈ e.outerNodes →
        (call name arguments).constant? table = none := by
    intro node es hnodes hnone e member arguments hcall
    refine hnone arguments ?_
    rw [hnodes]
    exact List.mem_cons_of_mem _ (outerNodes_subset_of_mem member hcall)
  induction e using Expr.inductionOn with
  | number value | reference other | assignment target value | unknown => rfl
  | operation operator operands ih | block operands ih =>
    rw [settle, settleAll_eq_self fun e member => ih e member (parts rfl h e member)]
  | call other arguments ih =>
    have hself := settleAll_eq_self fun e member => ih e member (parts rfl h e member)
    by_cases hother : other = name
    · subst hother
      rw [settle_call_of_none (h arguments List.mem_cons_self), hself]
    · rw [settle_call_of_ne hother, hself]

theorem heightOf_settleAll_le {es : List Expr}
    (each : ∀ e ∈ es, (e.settle table name).height ≤ e.height) :
    heightOf (settleAll table name es) ≤ heightOf es := by
  induction es with
  | nil => exact Nat.le_refl _
  | cons first rest ih =>
    obtain ⟨hfirst, hrest⟩ := List.forall_mem_cons.mp each
    have htail := ih hrest
    simp only [settleAll, heightOf]
    omega

theorem height_settle_le (e : Expr) : (e.settle table name).height ≤ e.height := by
  induction e using Expr.inductionOn with
  | number value | reference other | assignment target value | unknown => exact Nat.le_refl _
  | operation operator operands ih | block operands ih =>
    exact Nat.add_le_add_right (heightOf_settleAll_le ih) 1
  | call other arguments ih =>
    have hcall : (call other (settleAll table name arguments)).height ≤
        (call other arguments).height := Nat.add_le_add_right (heightOf_settleAll_le ih) 1
    rw [settle]
    split
    next =>
      split
      next => exact one_le_height _
      next => exact hcall
    next => exact hcall

theorem fits_settle {room : Room} {e : Expr} (fits : e.Fits room) :
    (e.settle table name).Fits room :=
  Room.holds_mono fits (Nat.mul_le_mul_left _ (height_settle_le e))

end Expr

namespace Mirrors

variable {parts arguments : List Expr} {folded : Expr} {host after : σ}

theorem settleAll {es : List Expr} (yields : List.Forall₂ folding.Yields es parts)
    (each : ∀ e ∈ es, ∀ {folded}, folding.Yields e folded →
      Mirrors (table.without name) env folded (e.settle table name)) :
    List.Forall₂ (Mirrors (table.without name) env) parts (Expr.settleAll table name es) := by
  induction yields with
  | nil => exact .nil
  | cons first _ ih =>
    obtain ⟨hfirst, hrest⟩ := List.forall_mem_cons.mp each
    exact .cons (hfirst first) (ih hrest)

/-- A call that keeps its place mirrors one whose function is not among those of the table. -/
theorem callAside
    (h : List.Forall₂ (Mirrors (table.without name) env) parts
      (Expr.settleAll table name arguments))
    (hnone : (Expr.call name arguments).constant? table = none) :
    Mirrors (table.without name) env (.call name parts)
      ((Expr.call name arguments).settle table name) := by
  rw [settle_call_of_none hnone]
  refine .ofOpen (call_eq h) rfl ?_
  rw [constant?, PureTable.without_self]
  rfl

/-- A call of the function itself is settled where all its arguments are and it has a value. -/
theorem settledCall {function : List Value → Except Fault Value}
    (h : List.Forall₂ (Mirrors (table.without name) env) parts
      (Expr.settleAll table name arguments))
    (hentry : table name = some function)
    (hfolding : folding.functions name = some (.pureFunction function))
    (returns : (folding.foldNode (.call name parts)).run host = (.ok folded, after)) :
    Mirrors (table.without name) env folded ((Expr.call name arguments).settle table name) := by
  have hconstants : constants? (table.without name) (Expr.settleAll table name arguments) =
      constants? table arguments := constants?_settleAll fun e _ => constant?_settle e
  rcases Folding.foldNode_cases returns with ⟨hall, hconstant⟩ | ⟨hopen, rfl, -⟩ |
    ⟨_, _, _, _, heq, _⟩
  · obtain ⟨values, rfl⟩ := exists_numbers hall
    have found : folding.environment.functions name = some (.pureFunction function) := hfolding
    have hvalue : (Expr.call name arguments).constant? table =
        (callOutcome name function values).toOption := by
      rw [constant?, hentry, ← hconstants, constants_eq h]
      rfl
    rcases Folding.evaluateConstant_cases (eval_call_numbers found) hconstant with
      ⟨value, hresult, rfl⟩ | ⟨fault, hresult, -, rfl⟩
    · rw [hresult] at hvalue
      rw [settle_call_of_some hvalue]
      exact .number value
    · rw [hresult] at hvalue
      exact callAside h hvalue
  · refine callAside h ?_
    rw [constant?, hentry, ← hconstants, constants_eq_none h hopen]
    rfl
  · cases heq

end Mirrors

/-- Whatever folding without joining makes of a tree mirrors the settled tree, in every environment
that has the other functions of the table. -/
theorem mirrors_settle {e folded : Expr} (calls : e.Everywhere (table.Matches folding.functions))
    (serves : e.Everywhere ((table.without name).Below env.functions))
    (joinless : folding.JoinsNothing e) (yields : folding.Yields e folded) :
    Mirrors (table.without name) env folded (e.settle table name) := by
  induction e using Expr.inductionOn generalizing folded with
  | number value =>
    rw [yields.eq_of_number]
    exact .number value
  | reference other =>
    rw [yields.eq_of_variable]
    exact .ofOpen rfl rfl rfl
  | assignment target value _ _ =>
    rw [yields.eq_of_assignment]
    exact .ofOpen rfl rfl rfl
  | unknown => exact absurd yields Folding.Yields.not_unknown
  | operation operator operands ih =>
    rw [everywhere_operation] at calls serves
    obtain ⟨parts, host, after, hparts, hnode⟩ := yields.operation
    have each := Mirrors.settleAll hparts fun e member _ =>
      ih e member (calls.2 e member) (serves.2 e member) (joinless.part rfl member)
    rcases Folding.foldNode_cases hnode with ⟨hall, hconstant⟩ | ⟨hopen, rfl, -⟩ |
      ⟨_, _, _, _, heq, hopen, hcomm, hmany, -, -⟩
    · exact .ofConstantOperation each hall hconstant
    · exact .operation operator each hopen
    · cases heq
      rcases joinless operator operands List.mem_cons_self hcomm parts hparts with hall | hfew
      · cases hall.symm.trans hopen
      · omega
  | call other arguments ih =>
    rw [everywhere_call] at calls serves
    obtain ⟨parts, host, after, hparts, hcases⟩ := yields.call
    have hentry : folding.functions other = table.callee? other := calls.1
    have each := Mirrors.settleAll hparts fun e member _ =>
      ih e member (calls.2 e member) (serves.2 e member) (joinless.part rfl member)
    rcases hcases with ⟨hnone, rfl⟩ | ⟨hsome, hnode⟩
    · have hmissing : table other = none := by
        rw [hentry] at hnone
        simpa [PureTable.callee?] using hnone
      by_cases hother : other = name
      · subst hother
        refine .callAside each ?_
        rw [constant?, hmissing]
        rfl
      · rw [settle_call_of_ne hother]
        refine .ofOpen (Mirrors.call_eq each) rfl ?_
        rw [constant?, PureTable.without_of_ne hother, hmissing]
        rfl
    · obtain ⟨function, hfunction⟩ : ∃ function, table other = some function := by
        rw [hentry, PureTable.callee?, Option.isSome_map] at hsome
        exact Option.isSome_iff_exists.mp hsome
      have hfolding : folding.functions other = some (.pureFunction function) :=
        hentry.trans (PureTable.callee?_eq_some hfunction)
      by_cases hother : other = name
      · subst hother
        exact .settledCall each hfunction hfolding hnode
      · rw [settle_call_of_ne hother]
        have hkept : table.without name other = some function :=
          (PureTable.without_of_ne hother).trans hfunction
        exact .foldedCall each hkept hfolding (serves.1 function hkept) hnode
  | block statements ih =>
    rw [everywhere_block] at calls serves
    obtain ⟨parts, host, after, hparts, hnode⟩ := yields.block
    exact .foldedBlock (Mirrors.settleAll hparts fun e member _ =>
      ih e member (calls.2 e member) (serves.2 e member) (joinless.part rfl member)) hnode

end Formula
