import Formula.Parser
import Formula.Proofs.Effect

namespace Formula.Parser

/-- The steps of the descent with what they yield. -/
inductive Reading where
  | sum (e : Expr)
  | sumRest (operands : List Expr) (e : Expr)
  | product (e : Expr)
  | productRest (factors : List Expr) (e : Expr)
  | unary (e : Expr)
  | power (e : Expr)
  | primary (e : Expr)
  | arguments (es : List Expr)
  | argumentsRest (es : List Expr)

/-- A step reads from one cursor up to another one. -/
inductive Reads : Reading → Cursor → Cursor → Prop where
  | sum {first e : Expr} {start middle stop : Cursor} :
    Reads (.product first) start middle → Reads (.sumRest [first] e) middle stop →
    Reads (.sum e) start stop
  | summand {operands : List Expr} {operand e : Expr} {token : Token}
      {start next middle stop : Cursor} :
    start.take? = some (token, next) → token.kind = .plus ∨ token.kind = .minus →
    Reads (.product operand) next middle →
    Reads (.sumRest (operands ++ [summand token.kind operand]) e) middle stop →
    Reads (.sumRest operands e) start stop
  | sumEnd {operands : List Expr} {start : Cursor} :
    (∀ token next, start.take? = some (token, next) → token.kind ≠ .plus ∧ token.kind ≠ .minus) →
    Reads (.sumRest operands (sumOf operands)) start start
  | product {first e : Expr} {start middle stop : Cursor} :
    Reads (.unary first) start middle → Reads (.productRest [first] e) middle stop →
    Reads (.product e) start stop
  | factor {factors : List Expr} {operand e : Expr} {token : Token}
      {start next middle stop : Cursor} :
    start.take? = some (token, next) →
    token.kind = .multiply ∨ token.kind = .divide ∨ token.kind = .modulo →
    Reads (.unary operand) next middle →
    Reads (.productRest (withFactor factors token.kind operand) e) middle stop →
    Reads (.productRest factors e) start stop
  | productEnd {factors : List Expr} {start : Cursor} :
    (∀ token next, start.take? = some (token, next) →
      token.kind ≠ .multiply ∧ token.kind ≠ .divide ∧ token.kind ≠ .modulo) →
    Reads (.productRest factors (productOf factors)) start start
  | sign {operand : Expr} {token : Token} {start next stop : Cursor} :
    start.take? = some (token, next) → token.kind = .minus ∨ token.kind = .plus →
    checkSign token start = .ok () → Reads (.unary operand) next stop →
    Reads (.unary (Parser.summand token.kind operand)) start stop
  | unsigned {e : Expr} {start stop : Cursor} :
    (∀ token next, start.take? = some (token, next) → token.kind ≠ .minus ∧ token.kind ≠ .plus) →
    Reads (.power e) start stop → Reads (.unary e) start stop
  | raised {base exponent : Expr} {start middle next stop : Cursor} :
    Reads (.primary base) start middle → middle.takeKind? .power = some next →
    Reads (.unary exponent) next stop →
    Reads (.power (.operation .power [base, exponent])) start stop
  | unraised {e : Expr} {start stop : Cursor} :
    Reads (.primary e) start stop → stop.takeKind? .power = none → Reads (.power e) start stop
  | number {x : Float} {token : Token} {start stop : Cursor} :
    start.take? = some (token, stop) → token.kind = .number →
    checkNumeral token stop.current = .ok () →
    Decimal.readNumeral false token.text.toList = some x →
    Reads (.primary (.number (.float x))) start stop
  | reference {token : Token} {start stop : Cursor} :
    start.take? = some (token, stop) → token.kind = .identifier →
    stop.takeKind? .lparen = none → Reads (.primary (.variable token.text)) start stop
  | call {es : List Expr} {token : Token} {start next inside behind stop : Cursor} :
    start.take? = some (token, next) → token.kind = .identifier →
    next.takeKind? .lparen = some inside → Reads (.arguments es) inside behind →
    behind.takeKind? .rparen = some stop → Reads (.primary (.call token.text es)) start stop
  | parenthesis {e : Expr} {token : Token} {start inside behind stop : Cursor} :
    start.take? = some (token, inside) → token.kind = .lparen → Reads (.sum e) inside behind →
    behind.takeKind? .rparen = some stop → Reads (.primary e) start stop
  | noArguments {start : Cursor} :
    start.current.kind = .rparen → Reads (.arguments []) start start
  | arguments {first : Expr} {others : List Expr} {start middle stop : Cursor} :
    start.current.kind ≠ .rparen → Reads (.sum first) start middle →
    Reads (.argumentsRest others) middle stop → Reads (.arguments (first :: others)) start stop
  | argument {first : Expr} {others : List Expr} {start next middle stop : Cursor} :
    start.takeKind? .comma = some next → Reads (.sum first) next middle →
    Reads (.argumentsRest others) middle stop →
    Reads (.argumentsRest (first :: others)) start stop
  | argumentsEnd {start : Cursor} :
    start.takeKind? .comma = none → Reads (.argumentsRest []) start start

/-- A statement reads from one cursor up to another one. -/
inductive ReadsStatement : Expr → Cursor → Cursor → Prop where
  | plain {e : Expr} {start stop : Cursor} :
    Reads (.sum e) start stop → stop.takeKind? .assign = none → ReadsStatement e start stop
  | assignment {target value : Expr} {start middle next stop : Cursor} :
    Reads (.sum target) start middle → middle.takeKind? .assign = some next →
    target.name?.isSome → Reads (.sum value) next stop →
    ReadsStatement (.assignment target value) start stop

/-- Statements read up to the end. -/
inductive ReadsStatements (force : Bool) : Bool → List Expr → Cursor → Prop where
  | semicolon {separated : Bool} {es : List Expr} {start next : Cursor} :
    start.takeKind? .semicolon = some next → ReadsStatements force true es next →
    ReadsStatements force separated es start
  | none {separated : Bool} {start : Cursor} :
    start.takeKind? .semicolon = .none → start.current.kind = .eof →
    ReadsStatements force separated [] start
  | statement {first : Expr} {others : List Expr} {separated : Bool} {start middle : Cursor} :
    start.takeKind? .semicolon = .none → start.current.kind ≠ .eof →
    start.current.kind ≠ .rparen → ReadsStatement first start middle →
    boundary force middle = .ok separated → ReadsStatements force separated others middle →
    ReadsStatements force true (first :: others) start

variable {room : Room} {cursor : Cursor}

theorem takeKind?_of_close {opening : Token} {inCall : Bool}
    {stop : { rest : Cursor // rest.left < cursor.left }}
    (h : close opening inCall cursor = .ok stop) : cursor.takeKind? .rparen = some stop.1 := by
  unfold close at h
  split at h
  next rest hrest =>
    cases h
    exact hrest
  next => split at h <;> cases h

/-- What every step that returns at a cursor has read. -/
structure ReadsAt (cursor : Cursor) : Prop where
  sum : ∀ room result, sum room cursor = .ok result →
    Reads (.sum result.tree) cursor result.rest
  sumRest : ∀ room operands result, sumRest room operands cursor = .ok result →
    Reads (.sumRest operands result.result) cursor result.rest
  product : ∀ room result, product room cursor = .ok result →
    Reads (.product result.tree) cursor result.rest
  productRest : ∀ room factors result, productRest room factors cursor = .ok result →
    Reads (.productRest factors result.result) cursor result.rest
  unary : ∀ room result, unary room cursor = .ok result →
    Reads (.unary result.tree) cursor result.rest
  power : ∀ room result, power room cursor = .ok result →
    Reads (.power result.tree) cursor result.rest
  primary : ∀ room result, primary room cursor = .ok result →
    Reads (.primary result.tree) cursor result.rest
  arguments : ∀ room result, arguments room cursor = .ok result →
    Reads (.arguments result.result) cursor result.rest
  argumentsRest : ∀ room result, argumentsRest room cursor = .ok result →
    Reads (.argumentsRest result.result) cursor result.rest

section Steps

-- Every step may rely on the steps further on, and on those below it at the same cursor.
variable (further : ∀ rest : Cursor, rest.left < cursor.left → ReadsAt rest)
include further

theorem reads_argumentsRest {result : ParsedRest (List Expr) cursor}
    (h : argumentsRest room cursor = .ok result) :
    Reads (.argumentsRest result.result) cursor result.rest := by
  rw [argumentsRest] at h
  split at h
  next rest hcomma =>
    have hleft := Cursor.left_takeKind? hcomma
    obtain ⟨⟨first, middle, hmiddle⟩, hsum, h⟩ := exists_of_bind_eq_ok h
    obtain ⟨⟨others, stop, hstop⟩, hothers, h⟩ := exists_of_bind_eq_ok h
    cases h
    exact .argument hcomma ((further rest (by omega)).sum room _ hsum)
      ((further middle (by omega)).argumentsRest room _ hothers)
  next hnone =>
    cases h
    exact .argumentsEnd hnone

theorem reads_primary {result : Parsed cursor} (h : primary room cursor = .ok result) :
    Reads (.primary result.tree) cursor result.rest := by
  rw [primary] at h
  split at h
  next token rest htake =>
    have hleft := Cursor.left_take? htake
    split at h
    next hkind =>
      obtain ⟨_, hnumeral, h⟩ := exists_of_bind_eq_ok h
      split at h
      next x hx =>
        cases h
        exact .number htake hkind hnumeral hx
      next => cases h
    next hkind =>
      split at h
      next inside hinside =>
        have hinner := Cursor.left_takeKind? hinside
        obtain ⟨inner, -, h⟩ := exists_of_bind_eq_ok h
        obtain ⟨⟨values, behind, hbehind⟩, harguments, h⟩ := exists_of_bind_eq_ok h
        obtain ⟨⟨stop, hstop⟩, hclose, h⟩ := exists_of_bind_eq_ok h
        cases h
        exact .call htake hkind hinside
          ((further inside (by omega)).arguments inner _ harguments) (takeKind?_of_close hclose)
      next hnone =>
        cases h
        exact .reference htake hkind hnone
    next hkind =>
      obtain ⟨inner, -, h⟩ := exists_of_bind_eq_ok h
      obtain ⟨⟨e, behind, hbehind⟩, hsum, h⟩ := exists_of_bind_eq_ok h
      obtain ⟨⟨stop, hstop⟩, hclose, h⟩ := exists_of_bind_eq_ok h
      cases h
      exact .parenthesis htake hkind ((further rest (by omega)).sum inner _ hsum)
        (takeKind?_of_close hclose)
    next => cases h
  next => cases h

theorem reads_power {result : Parsed cursor} (h : power room cursor = .ok result) :
    Reads (.power result.tree) cursor result.rest := by
  rw [power] at h
  obtain ⟨⟨base, rest, hrest⟩, hprimary, h⟩ := exists_of_bind_eq_ok h
  have hbase := reads_primary further hprimary
  dsimp only at h
  split at h
  next behind hpower =>
    have hleft := Cursor.left_takeKind? hpower
    obtain ⟨inner, -, h⟩ := exists_of_bind_eq_ok h
    obtain ⟨⟨exponent, stop, hstop⟩, hunary, h⟩ := exists_of_bind_eq_ok h
    cases h
    exact .raised hbase hpower ((further behind (by omega)).unary inner _ hunary)
  next hnone =>
    cases h
    exact .unraised hbase hnone

theorem reads_unary {result : Parsed cursor} (h : unary room cursor = .ok result) :
    Reads (.unary result.tree) cursor result.rest := by
  rw [unary] at h
  split at h
  next token rest htake =>
    have hleft := Cursor.left_take? htake
    split at h
    next hkind =>
      obtain ⟨_, hsign, h⟩ := exists_of_bind_eq_ok h
      obtain ⟨inner, -, h⟩ := exists_of_bind_eq_ok h
      obtain ⟨⟨operand, stop, hstop⟩, hunary, h⟩ := exists_of_bind_eq_ok h
      cases h
      exact .sign htake (by simpa using hkind) hsign
        ((further rest (by omega)).unary inner _ hunary)
    next hkind =>
      refine .unsigned (fun token' rest' htake' => ?_) (reads_power further h)
      cases htake.symm.trans htake'
      simpa using hkind
  next hnone =>
    exact .unsigned (fun token rest htake => by simp [hnone] at htake) (reads_power further h)

theorem reads_productRest {factors : List Expr} {result : ParsedRest Expr cursor}
    (h : productRest room factors cursor = .ok result) :
    Reads (.productRest factors result.result) cursor result.rest := by
  rw [productRest] at h
  split at h
  next token rest htake =>
    have hleft := Cursor.left_take? htake
    split at h
    next hkind =>
      obtain ⟨⟨operand, middle, hmiddle⟩, hunary, h⟩ := exists_of_bind_eq_ok h
      obtain ⟨⟨e, stop, hstop⟩, hrest, h⟩ := exists_of_bind_eq_ok h
      cases h
      exact .factor htake (by simpa [or_assoc] using hkind)
        ((further rest (by omega)).unary room _ hunary)
        ((further middle (by omega)).productRest room _ _ hrest)
    next hkind =>
      cases h
      refine .productEnd fun token' rest' htake' => ?_
      cases htake.symm.trans htake'
      simpa [and_assoc] using hkind
  next hnone =>
    cases h
    exact .productEnd fun token rest htake => by simp [hnone] at htake

theorem reads_product {result : Parsed cursor} (h : product room cursor = .ok result) :
    Reads (.product result.tree) cursor result.rest := by
  rw [product] at h
  obtain ⟨⟨first, rest, hfirst⟩, hunary, h⟩ := exists_of_bind_eq_ok h
  obtain ⟨⟨e, stop, hstop⟩, hrest, h⟩ := exists_of_bind_eq_ok h
  cases h
  exact .product (reads_unary further hunary) ((further rest hfirst).productRest room _ _ hrest)

theorem reads_sumRest {operands : List Expr} {result : ParsedRest Expr cursor}
    (h : sumRest room operands cursor = .ok result) :
    Reads (.sumRest operands result.result) cursor result.rest := by
  rw [sumRest] at h
  split at h
  next token rest htake =>
    have hleft := Cursor.left_take? htake
    split at h
    next hkind =>
      obtain ⟨⟨operand, middle, hmiddle⟩, hproduct, h⟩ := exists_of_bind_eq_ok h
      obtain ⟨⟨e, stop, hstop⟩, hrest, h⟩ := exists_of_bind_eq_ok h
      cases h
      exact .summand htake (by simpa using hkind)
        ((further rest (by omega)).product room _ hproduct)
        ((further middle (by omega)).sumRest room _ _ hrest)
    next hkind =>
      cases h
      refine .sumEnd fun token' rest' htake' => ?_
      cases htake.symm.trans htake'
      simpa using hkind
  next hnone =>
    cases h
    exact .sumEnd fun token rest htake => by simp [hnone] at htake

theorem reads_sum {result : Parsed cursor} (h : sum room cursor = .ok result) :
    Reads (.sum result.tree) cursor result.rest := by
  rw [sum] at h
  obtain ⟨⟨first, rest, hfirst⟩, hproduct, h⟩ := exists_of_bind_eq_ok h
  obtain ⟨⟨e, stop, hstop⟩, hrest, h⟩ := exists_of_bind_eq_ok h
  cases h
  exact .sum (reads_product further hproduct) ((further rest hfirst).sumRest room _ _ hrest)

theorem reads_arguments {result : ParsedRest (List Expr) cursor}
    (h : arguments room cursor = .ok result) :
    Reads (.arguments result.result) cursor result.rest := by
  rw [arguments] at h
  split at h
  next hkind =>
    cases h
    exact .noArguments hkind
  next hkind =>
    obtain ⟨⟨first, middle, hmiddle⟩, hsum, h⟩ := exists_of_bind_eq_ok h
    obtain ⟨⟨others, stop, hstop⟩, hothers, h⟩ := exists_of_bind_eq_ok h
    cases h
    exact .arguments hkind (reads_sum further hsum)
      ((further middle hmiddle).argumentsRest room _ hothers)

end Steps

/-- A step that returns has read what it yields, by induction on the tokens ahead. -/
theorem readsAt (cursor : Cursor) : ReadsAt cursor := by
  have further : ∀ rest : Cursor, rest.left < cursor.left → ReadsAt rest :=
    fun rest _ => readsAt rest
  exact {
    sum := fun _ _ => reads_sum further
    sumRest := fun _ _ _ => reads_sumRest further
    product := fun _ _ => reads_product further
    productRest := fun _ _ _ => reads_productRest further
    unary := fun _ _ => reads_unary further
    power := fun _ _ => reads_power further
    primary := fun _ _ => reads_primary further
    arguments := fun _ _ => reads_arguments further
    argumentsRest := fun _ _ => reads_argumentsRest further }
termination_by cursor.left

theorem readsStatement_of_statement {result : Parsed cursor}
    (h : statement room cursor = .ok result) :
    ReadsStatement result.tree cursor result.rest := by
  unfold statement at h
  obtain ⟨⟨e, rest, hrest⟩, hsum, h⟩ := exists_of_bind_eq_ok h
  dsimp only at h
  split at h
  next behind hassign =>
    split at h
    next => cases h
    next hname =>
      obtain ⟨⟨value, stop, hstop⟩, hvalue, h⟩ := exists_of_bind_eq_ok h
      cases h
      have hsome : e.name?.isSome := Option.isSome_iff_ne_none.mpr (by simpa using hname)
      exact .assignment ((readsAt _).sum _ _ hsum) hassign hsome ((readsAt _).sum _ _ hvalue)
  next hnone =>
    cases h
    exact .plain ((readsAt _).sum _ _ hsum) hnone

theorem readsStatements_of_statements {force separated : Bool} {es : List Expr}
    (h : statements room force separated cursor = .ok es) :
    ReadsStatements force separated es cursor := by
  fun_induction statements room force separated cursor generalizing es with
  | case1 separated cursor rest hsemicolon _ ih => exact .semicolon hsemicolon (ih h)
  | case2 separated cursor hnone token =>
    rename_i hkind
    cases h
    exact .none hnone hkind
  | case3 => cases h
  | case4 => cases h
  | case5 separated cursor hnone token heof hparen hseparated =>
    rename_i ih
    obtain ⟨⟨first, middle, hmiddle⟩, hfirst, h⟩ := exists_of_bind_eq_ok h
    obtain ⟨next, hnext, h⟩ := exists_of_bind_eq_ok h
    obtain ⟨others, hothers, h⟩ := exists_of_bind_eq_ok h
    cases h
    have hsep : separated = true := by simpa using hseparated
    subst hsep
    exact .statement hnone heof hparen (readsStatement_of_statement hfirst) hnext
      (ih middle hmiddle next hothers)

/-- A program is its only statement or a block of several. -/
theorem readsStatements_of_program {force : Bool} {e : Expr}
    (h : program room force cursor = .ok e) :
    ∃ es, ReadsStatements force true es cursor ∧
      (es = [e] ∨ e = .block es ∧ 2 ≤ es.length) := by
  obtain ⟨es, hes, h⟩ := exists_of_bind_eq_ok h
  refine ⟨es, readsStatements_of_statements hes, ?_⟩
  match es, h with
  | [only], h => exact .inl (by cases h; rfl)
  | first :: second :: rest, h => exact .inr ⟨by cases h; rfl, by simp⟩

end Formula.Parser
