import Formula.Proofs.Parser.Contacts
import Formula.Proofs.Parser.Derivation
import Formula.Proofs.Parser.Returns

namespace Formula

open Grammar (Touches)

variable {tail : List Token} {start start' next next' stop stop' : Cursor} {token token' : Token}

theorem Cursor.left_lt_of_take? (h : start.take? = some (token, next)) :
    next.left < start.left := by
  have hleft := Cursor.left_take? h
  omega

theorem Cursor.left_lt_of_takeKind? {kind : TokenKind} (h : start.takeKind? kind = some next) :
    next.left < start.left := by
  have hleft := Cursor.left_takeKind? h
  omega

/-- Two steps yield the same tree and cursors that are abreast. -/
structure Parsed.Agree (tail : List Token) (result : Parsed start) (result' : Parsed start') :
    Prop where
  tree : result.tree = result'.tree
  rest : Abreast tail result.rest result'.rest

structure ParsedRest.Agree {α : Type} (tail : List Token) (result : ParsedRest α start)
    (result' : ParsedRest α start') : Prop where
  same : result.result = result'.result
  rest : Abreast tail result.rest result'.rest

/-- Whether a tree is that of a program with the given statements. -/
def Expr.Comprises (e : Expr) (es : List Expr) : Prop :=
  es = [e] ∨ e = .block es ∧ 2 ≤ es.length

namespace Parser

variable {room inner : Room}

theorem carries_close (opening opening' : Token) (inCall : Bool)
    (h : Alongside tail start start') :
    Carries (fun stop stop' => Abreast tail stop.1 stop'.1) (close opening inCall start)
      (close opening' inCall start') := by
  intro stop hstop
  obtain ⟨next', htake', habreast⟩ := h.takeKind? (takeKind?_of_close hstop)
  obtain ⟨hleft, hclose⟩ := close_of_takeKind? htake'
  exact ⟨_, hclose opening' inCall, habreast⟩

theorem carries_descend (cost : Nat) (cursor cursor' : Cursor) :
    Carries Eq (descend room cost cursor) (descend room cost cursor') := by
  unfold descend
  split
  next => exact .pure rfl
  next => exact .error

theorem checkNumeral_eq_ok_iff {numeral following : Token} :
    checkNumeral numeral following = .ok () ↔
      (following.kind = .identifier ∨ following.kind = .number → ¬ Touches numeral following) := by
  unfold checkNumeral Touches
  by_cases hkind : following.kind = .identifier ∨ following.kind = .number
  · by_cases hposition : following.position = numeral.stop <;> simp [hkind, hposition]
  · simp [hkind]

theorem carries_checkNumeral (hcloses : Closes tail) (h : Abreast tail stop stop')
    (hprevious : stop.previous = some token) (hprevious' : stop'.previous = some token') :
    Carries Eq (checkNumeral token stop.current) (checkNumeral token' stop'.current) := by
  intro value hvalue
  refine ⟨value, checkNumeral_eq_ok_iff.mpr fun hoperand => ?_, rfl⟩
  rw [h.alongside.current_iff hcloses .identifier (by decide) (by decide),
    h.alongside.current_iff hcloses .number (by decide) (by decide)] at hoperand
  have hne : stop.ahead ≠ [] := by
    intro hnil
    rw [Cursor.current, hnil, List.headD_nil, h.last] at hoperand
    rcases hoperand with hkind | hkind <;> cases hkind
  rw [← h.touches hprevious hprevious' hne]
  exact checkNumeral_eq_ok_iff.mp hvalue hoperand

theorem carries_checkSign (h : Alongside tail start start')
    (htake : start.take? = some (token, next)) (htake' : start'.take? = some (token', next'))
    (hnext : Abreast tail next next') (hne : next.ahead ≠ []) :
    Carries Eq (checkSign token start) (checkSign token' start') := by
  intro value hvalue
  refine ⟨value, checkSign_eq_ok_iff.mpr fun hbehind => ?_, rfl⟩
  rw [← h.behind] at hbehind
  have hprevious := (Cursor.take?_eq_some_iff.mp htake).2.1
  have hprevious' := (Cursor.take?_eq_some_iff.mp htake').2.1
  have htouches := checkSign_eq_ok_iff.mp hvalue hbehind
  rw [Cursor.following_of_take? htake] at htouches
  rw [Cursor.following_of_take? htake']
  exact (hnext.touches hprevious hprevious' hne).mp htouches

section Equations

variable {operands factors : List Expr}

theorem unary_of_sign (htake : start.take? = some (token, next))
    (hkind : token.kind = .minus ∨ token.kind = .plus) :
    unary room start = do
      checkSign token start
      let inner ← descend room price.sign start
      let ⟨operand, stop, h⟩ ← unary inner next
      return ⟨summand token.kind operand, stop,
        Nat.lt_trans h (Cursor.left_lt_of_take? htake)⟩ := by
  rw [unary]
  split
  next other rest hother =>
    cases htake.symm.trans hother
    rw [if_pos (by simpa using hkind)]
  next hnone => cases htake.symm.trans hnone

theorem unary_of_unsigned (hnot : ∀ token next, start.take? = some (token, next) →
    ¬ (token.kind = .minus ∨ token.kind = .plus)) : unary room start = power room start := by
  rw [unary]
  split
  next token next htake => rw [if_neg (by simpa using hnot token next htake)]
  next => rfl

theorem productRest_of_factor (htake : start.take? = some (token, next))
    (hkind : token.kind = .multiply ∨ token.kind = .divide ∨ token.kind = .modulo) :
    productRest room factors start = do
      let ⟨operand, middle, h⟩ ← unary room next
      let ⟨e, stop, hr⟩ ← productRest room (withFactor factors token.kind operand) middle
      return ⟨e, stop,
        Nat.le_trans hr (Nat.le_of_lt (Nat.lt_trans h (Cursor.left_lt_of_take? htake)))⟩ := by
  rw [productRest]
  split
  next other rest hother =>
    cases htake.symm.trans hother
    rw [if_pos (by simpa [or_assoc] using hkind)]
  next hnone => cases htake.symm.trans hnone

theorem productRest_end (hnot : ∀ token next, start.take? = some (token, next) →
    ¬ (token.kind = .multiply ∨ token.kind = .divide ∨ token.kind = .modulo)) :
    productRest room factors start = return ⟨productOf factors, start, Nat.le_refl _⟩ := by
  rw [productRest]
  split
  next token next htake => rw [if_neg (by simpa [or_assoc] using hnot token next htake)]
  next => rfl

theorem sumRest_of_summand (htake : start.take? = some (token, next))
    (hkind : token.kind = .plus ∨ token.kind = .minus) :
    sumRest room operands start = do
      let ⟨operand, middle, h⟩ ← product room next
      let ⟨e, stop, hr⟩ ← sumRest room (operands ++ [summand token.kind operand]) middle
      return ⟨e, stop,
        Nat.le_trans hr (Nat.le_of_lt (Nat.lt_trans h (Cursor.left_lt_of_take? htake)))⟩ := by
  rw [sumRest]
  split
  next other rest hother =>
    cases htake.symm.trans hother
    rw [if_pos (by simpa using hkind)]
  next hnone => cases htake.symm.trans hnone

theorem sumRest_end (hnot : ∀ token next, start.take? = some (token, next) →
    ¬ (token.kind = .plus ∨ token.kind = .minus)) :
    sumRest room operands start = return ⟨sumOf operands, start, Nat.le_refl _⟩ := by
  rw [sumRest]
  split
  next token next htake => rw [if_neg (by simpa using hnot token next htake)]
  next => rfl

theorem primary_of_number (htake : start.take? = some (token, next))
    (hkind : token.kind = .number) :
    primary room start = (do
      checkNumeral token next.current
      match Decimal.readNumeral false token.text.toList with
      | some x => return ⟨.number (.float x), next, Cursor.left_lt_of_take? htake⟩
      | none => throw (unexpected start)) := by
  rw [primary]
  split
  next other rest hother =>
    cases htake.symm.trans hother
    rewrite [hkind]
    rfl
  next hnone => cases htake.symm.trans hnone

theorem primary_of_call (htake : start.take? = some (token, next))
    (hkind : token.kind = .identifier) (hopen : next.takeKind? .lparen = some stop) :
    primary room start = do
      let inner ← descend room price.argument next
      let ⟨values, behind, h⟩ ← arguments inner stop
      let ⟨behind, hc⟩ ← close next.current true behind
      return ⟨.call token.text values, behind,
        Nat.lt_of_lt_of_le hc (Nat.le_trans h (Nat.le_of_lt (Nat.lt_trans
          (Cursor.left_lt_of_takeKind? hopen) (Cursor.left_lt_of_take? htake))))⟩ := by
  rw [primary]
  split
  next other rest hother =>
    cases htake.symm.trans hother
    rw [hkind]
    dsimp only
    split
    next other hother =>
      cases hopen.symm.trans hother
      rfl
    next hnone => cases hopen.symm.trans hnone
  next hnone => cases htake.symm.trans hnone

theorem primary_of_variable (htake : start.take? = some (token, next))
    (hkind : token.kind = .identifier) (hopen : next.takeKind? .lparen = none) :
    primary room start =
      return ⟨.variable token.text, next, Cursor.left_lt_of_take? htake⟩ := by
  rw [primary]
  split
  next other rest hother =>
    cases htake.symm.trans hother
    rw [hkind]
    dsimp only
    split
    next other hother => cases hopen.symm.trans hother
    next => rfl
  next hnone => cases htake.symm.trans hnone

theorem primary_of_lparen (htake : start.take? = some (token, next))
    (hkind : token.kind = .lparen) :
    primary room start = do
      let inner ← descend room price.parenthesis start
      let ⟨e, behind, h⟩ ← sum inner next
      let ⟨behind, hc⟩ ← close token false behind
      return ⟨e, behind,
        Nat.lt_trans hc (Nat.lt_trans h (Cursor.left_lt_of_take? htake))⟩ := by
  rw [primary]
  split
  next other rest hother =>
    cases htake.symm.trans hother
    rewrite [hkind]
    rfl
  next hnone => cases htake.symm.trans hnone

theorem primary_eq_error (hnot : ∀ token next, start.take? = some (token, next) →
    ¬ (token.kind = .number ∨ token.kind = .identifier ∨ token.kind = .lparen)) :
    primary room start = .error (unexpected start) := by
  rw [primary]
  split
  next token next htake =>
    have hkind := hnot token next htake
    split
    next hnumber => exact absurd (.inl hnumber) hkind
    next hname => exact absurd (.inr (.inl hname)) hkind
    next hopen => exact absurd (.inr (.inr hopen)) hkind
    next => rfl
  next => rfl

end Equations

/-- What a step makes of a cursor it makes of every cursor alongside. -/
structure CarriesAt (tail : List Token) (start : Cursor) : Prop where
  sum : ∀ room start', Alongside tail start start' →
    Carries (Parsed.Agree tail) (sum room start) (sum room start')
  sumRest : ∀ room operands start', Abreast tail start start' →
    Carries (ParsedRest.Agree tail) (sumRest room operands start) (sumRest room operands start')
  product : ∀ room start', Alongside tail start start' →
    Carries (Parsed.Agree tail) (product room start) (product room start')
  productRest : ∀ room factors start', Abreast tail start start' →
    Carries (ParsedRest.Agree tail) (productRest room factors start)
      (productRest room factors start')
  unary : ∀ room start', Alongside tail start start' →
    Carries (Parsed.Agree tail) (unary room start) (unary room start')
  arguments : ∀ room start', Abreast tail start start' →
    Carries (ParsedRest.Agree tail) (arguments room start) (arguments room start')
  argumentsRest : ∀ room start', Abreast tail start start' →
    Carries (ParsedRest.Agree tail) (argumentsRest room start) (argumentsRest room start')

section Steps

-- Every step may rely on the steps further on, and on those below it at the same cursor.
variable (hcloses : Closes tail)
  (further : ∀ rest : Cursor, rest.left < start.left → CarriesAt tail rest)
include further

theorem carries_call (h : Alongside tail start start') (htake : start.take? = some (token, next))
    (hkind : token.kind = .identifier) (hopen : next.takeKind? .lparen = some stop) :
    Carries (Parsed.Agree tail) (primary room start) (primary room start') := by
  have hleft := Cursor.left_lt_of_take? htake
  have hinner := Cursor.left_lt_of_takeKind? hopen
  obtain ⟨token', next', htake', hkinds, htext, hnext⟩ := h.take? htake
  obtain ⟨stop', hopen', hstop⟩ := hnext.alongside.takeKind? hopen
  rw [primary_of_call htake hkind hopen]
  rw [hkinds] at hkind
  rw [primary_of_call htake' hkind hopen']
  refine (carries_descend _ _ _).bind ?_
  rintro inner _ rfl
  refine ((further stop (Nat.lt_trans hinner hleft)).arguments inner _ hstop).bind ?_
  rintro ⟨values, behind, _⟩ ⟨values', behind', _⟩ ⟨hvalues, hbehind⟩
  refine (carries_close _ _ true hbehind.alongside).bind ?_
  rintro ⟨closed, _⟩ ⟨closed', _⟩ hclosed
  exact .pure ⟨congrArg₂ Expr.call htext hvalues, hclosed⟩

theorem carries_parenthesis (h : Alongside tail start start')
    (htake : start.take? = some (token, next)) (hkind : token.kind = .lparen) :
    Carries (Parsed.Agree tail) (primary room start) (primary room start') := by
  have hleft := Cursor.left_lt_of_take? htake
  obtain ⟨token', next', htake', hkinds, -, hnext⟩ := h.take? htake
  rw [primary_of_lparen htake hkind]
  rw [hkinds] at hkind
  rw [primary_of_lparen htake' hkind]
  refine (carries_descend _ _ _).bind ?_
  rintro inner _ rfl
  refine ((further next hleft).sum inner _ hnext.alongside).bind ?_
  rintro ⟨e, behind, _⟩ ⟨e', behind', _⟩ ⟨htree, hbehind⟩
  refine (carries_close _ _ false hbehind.alongside).bind ?_
  rintro ⟨closed, _⟩ ⟨closed', _⟩ hclosed
  exact .pure ⟨htree, hclosed⟩

include hcloses

theorem carries_argumentsRest (h : Abreast tail start start') :
    Carries (ParsedRest.Agree tail) (argumentsRest room start) (argumentsRest room start') := by
  rw [argumentsRest, argumentsRest.eq_def room start']
  split
  next rest hcomma =>
    have hleft := Cursor.left_takeKind? hcomma
    obtain ⟨rest', hcomma', hrest⟩ := h.alongside.takeKind? hcomma
    split
    next other hother =>
      cases hcomma'.symm.trans hother
      refine ((further rest (by omega)).sum room _ hrest.alongside).bind ?_
      rintro ⟨first, middle, hmiddle⟩ ⟨first', middle', hmiddle'⟩ ⟨htree, hfirst⟩
      refine ((further middle (by omega)).argumentsRest room _ hfirst).bind ?_
      rintro ⟨others, stop, hstop⟩ ⟨others', stop', hstop'⟩ ⟨hothers, hstops⟩
      exact .pure ⟨congrArg₂ List.cons htree hothers, hstops⟩
    next hnone => cases hcomma'.symm.trans hnone
  next hnone =>
    have hnone' := h.alongside.takeKind?_none hcloses (by decide) hnone
    split
    next other hother => cases hnone'.symm.trans hother
    next => exact .pure ⟨rfl, h⟩

theorem carries_primary (h : Alongside tail start start') :
    Carries (Parsed.Agree tail) (primary room start) (primary room start') := by
  by_cases hoperand : ∃ token next, start.take? = some (token, next) ∧
      (token.kind = .number ∨ token.kind = .identifier ∨ token.kind = .lparen)
  · obtain ⟨token, rest, htake, hnumber | hname | hopen⟩ := hoperand
    · obtain ⟨token', rest', htake', hkind, htext, hrest⟩ := h.take? htake
      have hprevious := (Cursor.take?_eq_some_iff.mp htake).2.1
      have hprevious' := (Cursor.take?_eq_some_iff.mp htake').2.1
      rw [primary_of_number htake hnumber, primary_of_number htake' (hkind ▸ hnumber), ← htext]
      refine (carries_checkNumeral hcloses hrest hprevious hprevious').bind ?_
      rintro _ _ -
      split
      next => exact .pure ⟨rfl, hrest⟩
      next => exact .error
    · cases hcall : rest.takeKind? .lparen with
      | some inside => exact carries_call further h htake hname hcall
      | none =>
        obtain ⟨token', rest', htake', hkind, htext, hrest⟩ := h.take? htake
        have hcall' := hrest.alongside.takeKind?_none hcloses (by decide) hcall
        rw [primary_of_variable htake hname hcall,
          primary_of_variable htake' (hkind ▸ hname) hcall']
        exact .pure ⟨congrArg Expr.variable htext, hrest⟩
    · exact carries_parenthesis further h htake hopen
  · rw [primary_eq_error fun token next htake hkind => hoperand ⟨token, next, htake, hkind⟩]
    exact .error

theorem carries_power (h : Alongside tail start start') :
    Carries (Parsed.Agree tail) (power room start) (power room start') := by
  rw [power, power]
  refine (carries_primary hcloses further h).bind ?_
  rintro ⟨base, rest, hrest⟩ ⟨base', rest', hrest'⟩ ⟨htree, hrests⟩
  obtain rfl : base = base' := htree
  dsimp only at hrests ⊢
  split
  next behind hpower =>
    have hleft := Cursor.left_takeKind? hpower
    obtain ⟨behind', hpower', hbehind⟩ := hrests.alongside.takeKind? hpower
    split
    next other hother =>
      cases hpower'.symm.trans hother
      refine (carries_descend _ _ _).bind ?_
      rintro inner _ rfl
      refine ((further behind (by omega)).unary inner _ hbehind.alongside).bind ?_
      rintro ⟨exponent, stop, hstop⟩ ⟨exponent', stop', hstop'⟩ ⟨htree, hstops⟩
      obtain rfl : exponent = exponent' := htree
      exact .pure ⟨rfl, hstops⟩
    next hnone => cases hpower'.symm.trans hnone
  next hnone =>
    have hnone' := hrests.alongside.takeKind?_none hcloses (by decide) hnone
    split
    next other hother => cases hnone'.symm.trans hother
    next => exact .pure ⟨rfl, hrests⟩

theorem carries_unary (h : Alongside tail start start') :
    Carries (Parsed.Agree tail) (unary room start) (unary room start') := by
  by_cases hsign : ∃ token next, start.take? = some (token, next) ∧
      (token.kind = .minus ∨ token.kind = .plus)
  · obtain ⟨token, rest, htake, hsigned⟩ := hsign
    have hleft := Cursor.left_take? htake
    obtain ⟨token', rest', htake', hkind, -, hrest⟩ := h.take? htake
    refine .of_ok fun result hresult => ?_
    rw [unary_of_sign htake hsigned] at hresult ⊢
    rw [hkind] at hsigned
    rw [unary_of_sign htake' hsigned]
    -- the sign may depend on the token behind it, so that token must not be the end of the run
    have hne : rest.ahead ≠ [] := by
      obtain ⟨_, -, hresult⟩ := exists_of_bind_eq_ok hresult
      obtain ⟨inner, -, hresult⟩ := exists_of_bind_eq_ok hresult
      obtain ⟨⟨operand, stop, hstop⟩, -, -⟩ := exists_of_bind_eq_ok hresult
      intro hnil
      simp [Cursor.left, hnil] at hstop
    refine (carries_checkSign h htake htake' hrest hne).bind ?_
    rintro _ _ -
    refine (carries_descend _ _ _).bind ?_
    rintro inner _ rfl
    refine ((further rest (by omega)).unary inner _ hrest.alongside).bind ?_
    rintro ⟨operand, stop, hstop⟩ ⟨operand', stop', hstop'⟩ ⟨htree, hstops⟩
    exact .pure ⟨congrArg₂ summand hkind htree, hstops⟩
  · have hnot : ∀ token next, start.take? = some (token, next) →
        ¬ (token.kind = .minus ∨ token.kind = .plus) :=
      fun token next htake hkind => hsign ⟨token, next, htake, hkind⟩
    have hnot' := h.take?_not hcloses (p := fun k => k = .minus ∨ k = .plus) (by decide) hnot
    rw [unary_of_unsigned hnot, unary_of_unsigned hnot']
    exact carries_power hcloses further h

theorem carries_productRest {factors : List Expr} (h : Abreast tail start start') :
    Carries (ParsedRest.Agree tail) (productRest room factors start)
      (productRest room factors start') := by
  by_cases hfactor : ∃ token next, start.take? = some (token, next) ∧
      (token.kind = .multiply ∨ token.kind = .divide ∨ token.kind = .modulo)
  · obtain ⟨token, rest, htake, hoperator⟩ := hfactor
    have hleft := Cursor.left_take? htake
    obtain ⟨token', rest', htake', hkind, -, hrest⟩ := h.alongside.take? htake
    rw [productRest_of_factor htake hoperator]
    rw [hkind] at hoperator
    rw [productRest_of_factor htake' hoperator]
    refine ((further rest (by omega)).unary room _ hrest.alongside).bind ?_
    rintro ⟨operand, middle, hmiddle⟩ ⟨operand', middle', hmiddle'⟩ ⟨htree, hmiddles⟩
    obtain rfl : operand = operand' := htree
    rw [hkind]
    refine ((further middle (by omega)).productRest room _ _ hmiddles).bind ?_
    rintro ⟨e, stop, hstop⟩ ⟨e', stop', hstop'⟩ ⟨hsame, hstops⟩
    exact .pure ⟨hsame, hstops⟩
  · have hnot : ∀ token next, start.take? = some (token, next) →
        ¬ (token.kind = .multiply ∨ token.kind = .divide ∨ token.kind = .modulo) :=
      fun token next htake hkind => hfactor ⟨token, next, htake, hkind⟩
    have hnot' := h.alongside.take?_not hcloses
      (p := fun kind => kind = .multiply ∨ kind = .divide ∨ kind = .modulo) (by decide) hnot
    rw [productRest_end hnot, productRest_end hnot']
    exact .pure ⟨rfl, h⟩

theorem carries_product (h : Alongside tail start start') :
    Carries (Parsed.Agree tail) (product room start) (product room start') := by
  rw [product, product]
  refine (carries_unary hcloses further h).bind ?_
  rintro ⟨first, middle, hmiddle⟩ ⟨first', middle', hmiddle'⟩ ⟨htree, hmiddles⟩
  obtain rfl : first = first' := htree
  refine ((further middle hmiddle).productRest room _ _ hmiddles).bind ?_
  rintro ⟨e, stop, hstop⟩ ⟨e', stop', hstop'⟩ ⟨hsame, hstops⟩
  exact .pure ⟨hsame, hstops⟩

theorem carries_sumRest {operands : List Expr} (h : Abreast tail start start') :
    Carries (ParsedRest.Agree tail) (sumRest room operands start)
      (sumRest room operands start') := by
  by_cases hsummand : ∃ token next, start.take? = some (token, next) ∧
      (token.kind = .plus ∨ token.kind = .minus)
  · obtain ⟨token, rest, htake, hoperator⟩ := hsummand
    have hleft := Cursor.left_take? htake
    obtain ⟨token', rest', htake', hkind, -, hrest⟩ := h.alongside.take? htake
    rw [sumRest_of_summand htake hoperator]
    rw [hkind] at hoperator
    rw [sumRest_of_summand htake' hoperator]
    refine ((further rest (by omega)).product room _ hrest.alongside).bind ?_
    rintro ⟨operand, middle, hmiddle⟩ ⟨operand', middle', hmiddle'⟩ ⟨htree, hmiddles⟩
    obtain rfl : operand = operand' := htree
    rw [hkind]
    refine ((further middle (by omega)).sumRest room _ _ hmiddles).bind ?_
    rintro ⟨e, stop, hstop⟩ ⟨e', stop', hstop'⟩ ⟨hsame, hstops⟩
    exact .pure ⟨hsame, hstops⟩
  · have hnot : ∀ token next, start.take? = some (token, next) →
        ¬ (token.kind = .plus ∨ token.kind = .minus) :=
      fun token next htake hkind => hsummand ⟨token, next, htake, hkind⟩
    have hnot' := h.alongside.take?_not hcloses
      (p := fun kind => kind = .plus ∨ kind = .minus) (by decide) hnot
    rw [sumRest_end hnot, sumRest_end hnot']
    exact .pure ⟨rfl, h⟩

theorem carries_sum (h : Alongside tail start start') :
    Carries (Parsed.Agree tail) (sum room start) (sum room start') := by
  rw [sum, sum]
  refine (carries_product hcloses further h).bind ?_
  rintro ⟨first, middle, hmiddle⟩ ⟨first', middle', hmiddle'⟩ ⟨htree, hmiddles⟩
  obtain rfl : first = first' := htree
  refine ((further middle hmiddle).sumRest room _ _ hmiddles).bind ?_
  rintro ⟨e, stop, hstop⟩ ⟨e', stop', hstop'⟩ ⟨hsame, hstops⟩
  exact .pure ⟨hsame, hstops⟩

theorem carries_arguments (h : Abreast tail start start') :
    Carries (ParsedRest.Agree tail) (arguments room start) (arguments room start') := by
  have hparen := h.alongside.current_iff hcloses .rparen (by decide) (by decide)
  rw [arguments, arguments]
  by_cases hclosed : start.current.kind = .rparen
  · rw [if_pos hclosed, if_pos (hparen.mpr hclosed)]
    exact .pure ⟨rfl, h⟩
  · rw [if_neg hclosed, if_neg fun hclosed' => hclosed (hparen.mp hclosed')]
    refine (carries_sum hcloses further h.alongside).bind ?_
    rintro ⟨first, middle, hmiddle⟩ ⟨first', middle', hmiddle'⟩ ⟨htree, hmiddles⟩
    obtain rfl : first = first' := htree
    refine ((further middle hmiddle).argumentsRest room _ hmiddles).bind ?_
    rintro ⟨others, stop, hstop⟩ ⟨others', stop', hstop'⟩ ⟨hsame, hstops⟩
    exact .pure ⟨congrArg (List.cons first) hsame, hstops⟩

end Steps

theorem carriesAt (hcloses : Closes tail) (start : Cursor) : CarriesAt tail start := by
  -- by induction on the tokens ahead
  have further : ∀ rest : Cursor, rest.left < start.left → CarriesAt tail rest :=
    fun rest _ => carriesAt hcloses rest
  exact {
    sum := fun _ _ => carries_sum hcloses further
    sumRest := fun _ _ _ => carries_sumRest hcloses further
    product := fun _ _ => carries_product hcloses further
    productRest := fun _ _ _ => carries_productRest hcloses further
    unary := fun _ _ => carries_unary hcloses further
    arguments := fun _ _ => carries_arguments hcloses further
    argumentsRest := fun _ _ => carries_argumentsRest hcloses further }
termination_by start.left

theorem carries_statement (hcloses : Closes tail) (h : Alongside tail start start') :
    Carries (Parsed.Agree tail) (statement room start) (statement room start') := by
  unfold statement
  refine ((carriesAt hcloses start).sum room _ h).bind ?_
  rintro ⟨e, rest, hrest⟩ ⟨e', rest', hrest'⟩ ⟨htree, hrests⟩
  obtain rfl : e = e' := htree
  dsimp only at hrests ⊢
  split
  next behind hassign =>
    obtain ⟨behind', hassign', hbehind⟩ := hrests.alongside.takeKind? hassign
    split
    next => exact .error
    next hname =>
      split
      next other hother =>
        cases hassign'.symm.trans hother
        refine ((carriesAt hcloses behind).sum room _ hbehind.alongside).bind ?_
        rintro ⟨value, stop, hstop⟩ ⟨value', stop', hstop'⟩ ⟨htree, hstops⟩
        exact .pure ⟨congrArg (Expr.assignment e) htree, hstops⟩
      next hnone => cases hassign'.symm.trans hnone
  next hnone =>
    have hnone' := hrests.alongside.takeKind?_none hcloses (by decide) hnone
    split
    next other hother => cases hnone'.symm.trans hother
    next => exact .pure ⟨rfl, hrests⟩

theorem carries_boundary {force : Bool} (hcloses : Closes tail) (h : Abreast tail stop stop') :
    Carries Eq (boundary force stop) (boundary force stop') := by
  obtain ⟨token, token', hprevious, hprevious', -⟩ := h.around
  rcases h.alongside.current_cases hcloses with ⟨hne, -, hsame⟩ | ⟨-, hend, hend'⟩
  · have htouches := h.touches hprevious hprevious' hne
    unfold boundary
    simp only [← hsame, hprevious, hprevious']
    split
    next => exact .pure rfl
    next =>
      split
      next => exact .error
      next =>
        split
        next => exact .pure rfl
        next =>
          split
          next => exact .error
          next hapart =>
            have hapart' : ¬ (token'.stop == stop'.current.position) = true := by
              intro htouch
              have htouch' : Touches token' stop'.current := (beq_iff_eq.mp htouch).symm
              exact hapart (beq_iff_eq.mpr (htouches.mpr htouch').symm)
            rw [if_neg hapart']
            exact .pure rfl
  · have hyes : ∀ cursor : Cursor, cursor.current.kind = .eof ∨ cursor.current.kind = .semicolon →
        boundary force cursor = .ok true := by
      intro cursor hkind
      unfold boundary
      rw [if_pos (by rcases hkind with hkind | hkind <;> simp [hkind])]
      rfl
    rw [hyes stop (.inl hend), hyes stop' hend']
    exact .pure rfl

/-- Statements alongside are the same up to where the first ones end; what follows them there
follows the second ones. -/
theorem statements_alongside {force separated : Bool} {es others : List Expr}
    (hcloses : Closes tail)
    (hend : ∀ separated cursor, cursor.ahead = tail → cursor.last.kind = .eof →
      statements room force separated cursor = .ok others)
    (h : Alongside tail start start') (hes : statements room force separated start = .ok es) :
    statements room force separated start' = .ok (es ++ others) := by
  fun_induction statements room force separated start generalizing start' es with
  | case1 separated start rest hsemicolon _ ih =>
    obtain ⟨rest', hsemicolon', hrest⟩ := h.takeKind? hsemicolon
    rw [statements_of_semicolon hsemicolon']
    exact ih hrest.alongside hes
  | case2 separated start hnone token =>
    rename_i heof
    cases hes
    rcases h.current_cases hcloses with ⟨-, hne, -⟩ | ⟨hnil, -⟩
    · exact absurd heof hne
    · exact hend separated start' (h.ahead_of_nil hnil) h.last'
  | case3 => cases hes
  | case4 => cases hes
  | case5 separated start hnone token heof hparen hseparated =>
    rename_i ih
    rcases h.current_cases hcloses with ⟨hne, -, hsame⟩ | ⟨-, hkind, -⟩
    · have hnone' : start'.takeKind? .semicolon = none := by
        rw [Cursor.takeKind?_eq_none_iff] at hnone ⊢
        intro token' next' htake' hkind'
        obtain ⟨token, next, htake, hkind⟩ := h.take?_of_ahead hne htake'
        exact hnone token next htake (hkind.trans hkind')
      obtain ⟨first, hfirst, hes⟩ := exists_of_bind_eq_ok hes
      obtain ⟨next, hnext, hes⟩ := exists_of_bind_eq_ok hes
      obtain ⟨later, hlater, hes⟩ := exists_of_bind_eq_ok hes
      cases hes
      obtain ⟨first', hfirst', htree, hrest⟩ := carries_statement hcloses h first hfirst
      obtain ⟨next', hnext', rfl⟩ := carries_boundary hcloses hrest next hnext
      have hlater' := ih first.rest first.further next hrest.alongside hlater
      obtain rfl : separated = true := by simpa using hseparated
      rw [statements_of_statement hnone' (hsame ▸ heof) (hsame ▸ hparen)]
      simp only [hfirst', hnext', hlater', htree, ok_bind]
      rfl
    · exact absurd hkind heof

theorem statements_end {force separated : Bool} (hahead : start.ahead = [])
    (hlast : start.last.kind = .eof) : statements room force separated start = .ok [] := by
  have hnone : start.takeKind? .semicolon = none := by
    simp [Cursor.takeKind?, Cursor.take?, hahead]
  have heof : start.current.kind = .eof := by simpa [Cursor.current, hahead] using hlast
  exact statements_of_eof hnone heof

/-- The tree of a program is made of its statements, of which there has to be one. -/
theorem program_eq_ok_iff {force : Bool} {e : Expr} :
    program room force start = .ok e ↔
      ∃ es, statements room force true start = .ok es ∧ e.Comprises es := by
  constructor
  · intro he
    obtain ⟨es, hes, he⟩ := exists_of_bind_eq_ok he
    refine ⟨es, hes, ?_⟩
    match es, he with
    | [only], he =>
      cases he
      exact .inl rfl
    | first :: second :: rest, he =>
      cases he
      exact .inr ⟨rfl, by simp⟩
  · rintro ⟨es, hes, rfl | ⟨rfl, hlength⟩⟩
    · rw [program, hes]
      rfl
    · match es, hes, hlength with
      | first :: second :: rest, hes, _ =>
        rw [program, hes]
        rfl

theorem program_alongside {force : Bool} {e : Expr} (h : Alongside [] start start')
    (he : program room force start = .ok e) : program room force start' = .ok e := by
  obtain ⟨es, hes, hform⟩ := program_eq_ok_iff.mp he
  have hcloses : Closes [] := by
    intro token htoken
    cases htoken
  have hes' := statements_alongside hcloses (fun _ _ => statements_end) h hes
  rw [List.append_nil] at hes'
  exact program_eq_ok_iff.mpr ⟨es, hes', hform⟩

end Parser

section Texts

variable {room : Room} {force : Bool} {s s' : String}

theorem Along.ofTokens {tokens tokens' : List Token} (h : Along tail tokens tokens') :
    Alongside tail (.ofTokens s tokens) (.ofTokens s' tokens') :=
  ⟨rfl, h, rfl, rfl⟩

theorem parse_eq_ok_iff {e : Expr} :
    parse room force (some s) = .ok e ↔
      ∃ tokens es, TokenRule.tokensFrom TokenRule.standard s .start s.toList = .ok tokens ∧
        Parser.statements room force true (.ofTokens s tokens) = .ok es ∧ e.Comprises es := by
  cases htokens : TokenRule.tokensFrom TokenRule.standard s .start s.toList with
  | error error => simp [parse_of_lex_error htokens]
  | ok tokens => simp [parse_eq_ok_iff_of_lex htokens, Parser.program_eq_ok_iff]

end Texts

end Formula
