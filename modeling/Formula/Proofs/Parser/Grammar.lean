import Formula.Parser

namespace Formula

/-- Whether a token can stand within an expression. -/
def TokenKind.isWithin : TokenKind → Bool
  | .assign | .semicolon | .whitespace | .eof | .custom _ => false
  | _ => true

theorem TokenKind.ne_of_startsStatement {kind other : TokenKind} (h : kind.startsStatement = true)
    (hother : other.startsStatement = false) : kind ≠ other := by
  rintro rfl
  rw [h] at hother
  cases hother

end Formula

namespace Formula.Grammar

inductive Phrase where
  | summands (es : List Expr)
  | sum (e : Expr)
  | factors (es : List Expr)
  | product (e : Expr)
  | unary (e : Expr)
  | power (e : Expr)
  | primary (e : Expr)
  | arguments (es : List Expr)

/-- Whether a token begins where another one ends. -/
def Touches (token next : Token) : Prop :=
  next.position = token.stop

inductive Derives : Bool → List Token → Phrase → Prop where
  | summand {b : Bool} {w : List Token} {e : Expr} :
    Derives b w (.product e) → Derives b w (.summands [e])
  | plus {b : Bool} {w v : List Token} {sign : Token} {es : List Expr} {e : Expr} :
    Derives b w (.summands es) → sign.kind = .plus → Derives true v (.product e) →
    Derives b (w ++ sign :: v) (.summands (es ++ [e]))
  | minus {b : Bool} {w v : List Token} {sign : Token} {es : List Expr} {e : Expr} :
    Derives b w (.summands es) → sign.kind = .minus → Derives true v (.product e) →
    Derives b (w ++ sign :: v) (.summands (es ++ [.operation .negate [e]]))
  | onlySummand {b : Bool} {w : List Token} {e : Expr} :
    Derives b w (.summands [e]) → Derives b w (.sum e)
  | sum {b : Bool} {w : List Token} {es : List Expr} :
    Derives b w (.summands es) → 2 ≤ es.length → Derives b w (.sum (.operation .add es))
  | factor {b : Bool} {w : List Token} {e : Expr} :
    Derives b w (.unary e) → Derives b w (.factors [e])
  | times {b : Bool} {w v : List Token} {operator : Token} {es : List Expr} {e : Expr} :
    Derives b w (.factors es) → operator.kind = .multiply → Derives true v (.unary e) →
    Derives b (w ++ operator :: v) (.factors (es ++ [e]))
  | divide {b : Bool} {w v : List Token} {operator : Token} {es : List Expr} {e : Expr} :
    Derives b w (.factors es) → operator.kind = .divide → Derives true v (.unary e) →
    Derives b (w ++ operator :: v) (.factors (es ++ [.operation .reciprocal [e]]))
  /-- A remainder is a factor of what follows it, and what stands before it is its dividend. -/
  | modulo {b : Bool} {w v : List Token} {operator : Token} {dividend e : Expr} :
    Derives b w (.product dividend) → operator.kind = .modulo → Derives true v (.unary e) →
    Derives b (w ++ operator :: v) (.factors [.operation .remainder [dividend, e]])
  | onlyFactor {b : Bool} {w : List Token} {e : Expr} :
    Derives b w (.factors [e]) → Derives b w (.product e)
  | product {b : Bool} {w : List Token} {es : List Expr} :
    Derives b w (.factors es) → 2 ≤ es.length → Derives b w (.product (.operation .multiply es))
  | negative {b : Bool} {w : List Token} {sign : Token} {e : Expr} :
    sign.kind = .minus → (b = true → ∃ next, w.head? = some next ∧ Touches sign next) →
    Derives true w (.unary e) → Derives b (sign :: w) (.unary (.operation .negate [e]))
  | positive {b : Bool} {w : List Token} {sign : Token} {e : Expr} :
    sign.kind = .plus → (b = true → ∃ next, w.head? = some next ∧ Touches sign next) →
    Derives true w (.unary e) → Derives b (sign :: w) (.unary e)
  | unsigned {b : Bool} {w : List Token} {e : Expr} :
    Derives b w (.power e) → Derives b w (.unary e)
  | power {b : Bool} {w v : List Token} {operator : Token} {base exponent : Expr} :
    Derives b w (.primary base) → operator.kind = .power → Derives true v (.unary exponent) →
    Derives b (w ++ operator :: v) (.power (.operation .power [base, exponent]))
  | base {b : Bool} {w : List Token} {e : Expr} :
    Derives b w (.primary e) → Derives b w (.power e)
  | number {b : Bool} {token : Token} {x : Float} :
    token.kind = .number → Decimal.readNumeral false token.text.toList = some x →
    Derives b [token] (.primary (.number (.float x)))
  | reference {b : Bool} {token : Token} :
    token.kind = .identifier → Derives b [token] (.primary (.variable token.text))
  | parenthesis {b : Bool} {w : List Token} {opening closing : Token} {e : Expr} :
    opening.kind = .lparen → Derives false w (.sum e) → closing.kind = .rparen →
    Derives b (opening :: (w ++ [closing])) (.primary e)
  | call {b : Bool} {w : List Token} {name opening closing : Token} {es : List Expr} :
    name.kind = .identifier → opening.kind = .lparen → Derives false w (.arguments es) →
    closing.kind = .rparen →
    Derives b (name :: opening :: (w ++ [closing])) (.primary (.call name.text es))
  | emptyCall {b : Bool} {name opening closing : Token} :
    name.kind = .identifier → opening.kind = .lparen → closing.kind = .rparen →
    Derives b [name, opening, closing] (.primary (.call name.text []))
  | argument {w : List Token} {e : Expr} :
    Derives false w (.sum e) → Derives false w (.arguments [e])
  | arguments {w v : List Token} {comma : Token} {e : Expr} {es : List Expr} :
    Derives false w (.sum e) → comma.kind = .comma → Derives false v (.arguments es) →
    Derives false (w ++ comma :: v) (.arguments (e :: es))

/-- A run of tokens is a statement. -/
inductive Statement : List Token → Expr → Prop where
  | sum {w : List Token} {e : Expr} : Derives false w (.sum e) → Statement w e
  | assignment {w v : List Token} {equals : Token} {name : String} {value : Expr} :
    Derives false w (.sum (.variable name)) → equals.kind = .assign →
    Derives false v (.sum value) →
    Statement (w ++ equals :: v) (.assignment (.variable name) value)

/-- Whether a run of tokens is made of semicolons. It may be empty. -/
def Semicolons (w : List Token) : Prop :=
  ∀ token ∈ w, token.kind = .semicolon

/-- Whether two statements may stand side by side without a semicolon: the second one begins with a
numeral, a word or a parenthesis that does not touch the first one, and it cannot be taken for a
call of a word there. -/
def Apart (force : Bool) (first second : List Token) : Prop :=
  force = false ∧ ∃ before next, first.getLast? = some before ∧ second.head? = some next ∧
    (next.kind = .number ∨ next.kind = .identifier ∨ next.kind = .lparen) ∧
    ¬ Touches before next ∧ ¬ (before.kind = .identifier ∧ next.kind = .lparen)

/-- A run of tokens is one or more statements with semicolons between, or set apart. -/
inductive Statements (force : Bool) : List Token → List Expr → Prop where
  | one {w : List Token} {e : Expr} : Statement w e → Statements force w [e]
  | more {w u v : List Token} {e : Expr} {es : List Expr} :
    Statement w e → Semicolons u → Statements force v es → (u = [] → Apart force w v) →
    Statements force (w ++ (u ++ v)) (e :: es)

/-- A row of tokens is a program: statements with semicolons around them. -/
inductive Program (force : Bool) : List Token → Expr → Prop where
  | statement {u w v : List Token} {e : Expr} :
    Semicolons u → Statement w e → Semicolons v → Program force (u ++ (w ++ v)) e
  | block {u w v : List Token} {es : List Expr} :
    Semicolons u → Statements force w es → 2 ≤ es.length → Semicolons v →
    Program force (u ++ (w ++ v)) (.block es)

variable {b : Bool} {w : List Token} {phrase : Phrase}

/-- Every phrase begins with a token that a statement may begin with. -/
theorem Derives.starts (h : Derives b w phrase) :
    ∃ token rest, w = token :: rest ∧ token.kind.startsStatement = true := by
  induction h with
  | summand _ ih | onlySummand _ ih | sum _ _ ih | factor _ ih | onlyFactor _ ih
  | product _ _ ih | unsigned _ ih | base _ ih | argument _ ih => exact ih
  | plus _ _ _ ih | minus _ _ _ ih | times _ _ _ ih | divide _ _ _ ih | modulo _ _ _ ih
  | power _ _ _ ih | arguments _ _ _ ih =>
    obtain ⟨token, rest, rfl, hkind⟩ := ih
    exact ⟨token, _, List.cons_append, hkind⟩
  | negative hkind _ _ _ | positive hkind _ _ _ | number hkind _ | reference hkind
  | parenthesis hkind _ _ _ | call hkind _ _ _ _ | emptyCall hkind _ _ =>
    exact ⟨_, _, rfl, by rw [hkind]; rfl⟩

theorem Derives.primary_starts {e : Expr} (h : Derives b w (.primary e)) :
    ∃ token rest, w = token :: rest ∧ token.kind ≠ .minus ∧ token.kind ≠ .plus := by
  cases h with
  | number hkind _ | reference hkind | parenthesis hkind _ _ | call hkind _ _ _
  | emptyCall hkind _ _ => exact ⟨_, _, rfl, by rw [hkind]; decide⟩

/-- An operand of a sign that is no sign itself begins with none. -/
theorem Derives.power_starts {e : Expr} (h : Derives b w (.power e)) :
    ∃ token rest, w = token :: rest ∧ token.kind ≠ .minus ∧ token.kind ≠ .plus := by
  cases h with
  | power hbase _ _ =>
    obtain ⟨token, rest, rfl, hkind⟩ := hbase.primary_starts
    exact ⟨token, _, List.cons_append, hkind⟩
  | base hprimary => exact hprimary.primary_starts

/-- The last token of a phrase is no operator. -/
theorem Derives.stops (h : Derives b w phrase) :
    ∃ token, w.getLast? = some token ∧ token.kind.isOperator = false := by
  induction h with
  | summand _ ih | onlySummand _ ih | sum _ _ ih | factor _ ih | onlyFactor _ ih
  | product _ _ ih | unsigned _ ih | base _ ih | argument _ ih => exact ih
  | plus _ _ _ _ ih | minus _ _ _ _ ih | times _ _ _ _ ih | divide _ _ _ _ ih
  | modulo _ _ _ _ ih | power _ _ _ _ ih | arguments _ _ _ _ ih | negative _ _ _ ih
  | positive _ _ _ ih =>
    obtain ⟨token, hlast, hkind⟩ := ih
    exact ⟨token, by simp [List.getLast?_cons, hlast], hkind⟩
  | @number _ token _ hkind _ | @reference _ token hkind =>
    exact ⟨token, rfl, by rw [hkind]; rfl⟩
  | @parenthesis _ _ _ closing _ _ _ hkind _ | @call _ _ _ _ closing _ _ _ _ hkind _
  | @emptyCall _ _ _ closing _ _ hkind =>
    exact ⟨closing, by simp [List.getLast?_cons], by rw [hkind]; rfl⟩

theorem Derives.summands_ne_nil {es : List Expr} (h : Derives b w (.summands es)) : es ≠ [] := by
  cases h <;> simp

theorem Derives.factors_ne_nil {es : List Expr} (h : Derives b w (.factors es)) : es ≠ [] := by
  cases h <;> simp

theorem Statement.starts {e : Expr} (h : Statement w e) :
    ∃ token rest, w = token :: rest ∧ token.kind.startsStatement = true := by
  cases h with
  | sum hsum => exact hsum.starts
  | assignment htarget _ _ =>
    obtain ⟨token, rest, rfl, hkind⟩ := htarget.starts
    exact ⟨token, _, List.cons_append, hkind⟩

theorem Statement.stops {e : Expr} (h : Statement w e) :
    ∃ token, w.getLast? = some token ∧ token.kind.isOperator = false := by
  cases h with
  | sum hsum => exact hsum.stops
  | assignment _ _ hvalue =>
    obtain ⟨token, hlast, hkind⟩ := hvalue.stops
    exact ⟨token, by simp [List.getLast?_cons, hlast], hkind⟩

theorem Statements.starts {force : Bool} {es : List Expr} (h : Statements force w es) :
    ∃ token rest, w = token :: rest ∧ token.kind.startsStatement = true := by
  cases h with
  | one hfirst => exact hfirst.starts
  | more hfirst _ _ _ =>
    obtain ⟨token, rest, rfl, hkind⟩ := hfirst.starts
    exact ⟨token, _, List.cons_append, hkind⟩

/-- Whether two runs are apart shows in the last token of the first one and the first one of the
other. -/
theorem Apart.congr {force : Bool} {v w' v' : List Token} (h : Apart force w v)
    (hlast : w.getLast? = w'.getLast?) (hhead : v.head? = v'.head?) : Apart force w' v' := by
  rwa [Apart, ← hlast, ← hhead]

theorem Derives.isWithin (h : Derives b w phrase) : ∀ token ∈ w, token.kind.isWithin = true := by
  induction h with
  | summand _ ih | onlySummand _ ih | sum _ _ ih | factor _ ih | onlyFactor _ ih
  | product _ _ ih | unsigned _ ih | base _ ih | argument _ ih => exact ih
  | plus _ hkind _ ihFirst ihLast | minus _ hkind _ ihFirst ihLast
  | times _ hkind _ ihFirst ihLast | divide _ hkind _ ihFirst ihLast
  | modulo _ hkind _ ihFirst ihLast | power _ hkind _ ihFirst ihLast
  | arguments _ hkind _ ihFirst ihLast =>
    rw [List.forall_mem_append, List.forall_mem_cons, hkind]
    exact ⟨ihFirst, by decide, ihLast⟩
  | negative hkind _ _ ih | positive hkind _ _ ih =>
    rw [List.forall_mem_cons, hkind]
    exact ⟨by decide, ih⟩
  | number hkind _ | reference hkind => simp [hkind, TokenKind.isWithin]
  | parenthesis hopening _ hclosing ih =>
    simp only [List.forall_mem_cons, List.forall_mem_append, hopening, hclosing]
    exact ⟨by decide, ih, by decide, by simp⟩
  | call hname hopening _ hclosing ih =>
    simp only [List.forall_mem_cons, List.forall_mem_append, hname, hopening, hclosing]
    exact ⟨by decide, by decide, ih, by decide, by simp⟩
  | emptyCall hname hopening hclosing => simp [hname, hopening, hclosing, TokenKind.isWithin]

/-- No semicolon is part of a statement. -/
theorem Statement.kind_ne_semicolon {e : Expr} (h : Statement w e) :
    ∀ token ∈ w, token.kind ≠ .semicolon := by
  have hsum : ∀ {w : List Token} {e : Expr}, Derives false w (.sum e) →
      ∀ token ∈ w, token.kind ≠ .semicolon := by
    intro w e hderives token member hkind
    have hwithin := hderives.isWithin token member
    rw [hkind] at hwithin
    cases hwithin
  cases h with
  | sum hderives => exact hsum hderives
  | assignment htarget hkind hvalue =>
    rw [List.forall_mem_append, List.forall_mem_cons, hkind]
    exact ⟨hsum htarget, by decide, hsum hvalue⟩

end Formula.Grammar
