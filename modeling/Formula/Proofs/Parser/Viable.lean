import Formula.Proofs.Parser.Supply

namespace Formula

open Grammar TokenRule

namespace Parser

variable {room : Room} {force : Bool} {start middle next stop : Cursor} {token : Token}
  {error : ParseError} {u v w : List Token}

/-- Whether a run is a phrase of some kind. -/
def IsPhrase (b : Bool) (kind : Expr → Phrase) (w : List Token) : Prop :=
  ∃ e, Derives b w (kind e)

theorem token_of_unexpected (start : Cursor) :
    (unexpected start).token = start.current ∨
      start.previous = some (unexpected start).token ∧
        (unexpected start).token.kind.isOperator = true := by
  unfold unexpected
  dsimp only
  cases hprevious : start.previous with
  | none => split_ifs <;> exact .inl rfl
  | some previous =>
    dsimp only
    by_cases hoperator : previous.kind.isOperator = true
    · rw [if_pos hoperator]
      split_ifs
      · exact .inr ⟨rfl, hoperator⟩
      all_goals exact .inl rfl
    · rw [if_neg hoperator]
      split_ifs <;> exact .inl rfl

theorem blames_unexpected (start : Cursor) (b : Bool) :
    Blames (IsPhrase b .primary) start (unexpected start).token := by
  refine (token_of_unexpected start).imp_left fun hcurrent => ?_
  rw [hcurrent]
  exact .missing start fun w e h => ⟨e, h b⟩

theorem fault_of_descend {cost : Nat} (h : descend room cost start = .error error) :
    error.fault = .tooDeep := by
  unfold descend at h
  split at h <;> cases h
  rfl

theorem token_of_checkNumeral {numeral following : Token}
    (h : checkNumeral numeral following = .error error) : error.token = following := by
  unfold checkNumeral at h
  split at h <;> cases h
  rfl

theorem token_of_checkSign {sign : Token} (h : checkSign sign start = .error error) :
    error.token = sign := by
  unfold checkSign at h
  split at h
  next =>
    split at h <;> cases h
    rfl
  next => cases h

theorem token_of_close {opening : Token} {inCall : Bool}
    (h : close opening inCall start = .error error) :
    error.token = opening ∨ error.token = start.current := by
  unfold close at h
  split at h
  next => cases h
  next =>
    split at h <;> cases h
    · exact .inl rfl
    · exact .inr rfl

/-- Whether every numeral ahead has a value. -/
def HasValues (cursor : Cursor) : Prop :=
  ∀ token ∈ cursor.ahead, token.kind = .number →
    ∃ x, Decimal.readNumeral false token.text.toList = some x

theorem HasValues.of_spans (h : HasValues start) (hw : Spans start w stop) : HasValues stop := by
  intro token member
  refine h token ?_
  rw [hw.ahead]
  exact List.mem_append_right _ member

theorem HasValues.of_take? (h : HasValues start) (htake : start.take? = some (token, next)) :
    HasValues next :=
  h.of_spans (.single htake)

def IsArguments (w : List Token) : Prop :=
  w = [] ∨ ∃ es, Derives false w (.arguments es)

/-- What a step that fails at a cursor complains about, unless it is the depth. The rest of a chain
is completed to a chain with what stands before it. -/
structure FailsAt (cursor : Cursor) : Prop where
  sum : ∀ room error, sum room cursor = .error error → error.fault ≠ .tooDeep →
    Blames (IsPhrase cursor.behindOperator .sum) cursor error.token
  sumRest : ∀ room operands error, sumRest room operands cursor = .error error →
    error.fault ≠ .tooDeep → ∀ b u, Derives b u (.summands operands) →
      Viable (fun w => IsPhrase b .sum (u ++ w)) cursor error.token
  product : ∀ room error, product room cursor = .error error → error.fault ≠ .tooDeep →
    Blames (IsPhrase cursor.behindOperator .product) cursor error.token
  productRest : ∀ room factors error, productRest room factors cursor = .error error →
    error.fault ≠ .tooDeep → ∀ b u, Derives b u (.factors factors) →
      Viable (fun w => IsPhrase b .product (u ++ w)) cursor error.token
  unary : ∀ room error, unary room cursor = .error error → error.fault ≠ .tooDeep →
    Blames (IsPhrase cursor.behindOperator .unary) cursor error.token
  arguments : ∀ room error, arguments room cursor = .error error → error.fault ≠ .tooDeep →
    cursor.behindOperator = false → Viable IsArguments cursor error.token
  argumentsRest : ∀ room error, argumentsRest room cursor = .error error →
    error.fault ≠ .tooDeep → ∀ u e, Derives false u (.sum e) →
      Viable (fun w => ∃ es, Derives false (u ++ w) (.arguments es)) cursor error.token

section Steps

-- Every step may rely on the steps further on, and on those below it at the same cursor.
variable (further : ∀ rest : Cursor, rest.left < start.left → HasValues rest → FailsAt rest)
  (values : HasValues start) (hfault : error.fault ≠ .tooDeep)
include further values hfault

theorem fails_call (htake : start.take? = some (token, next)) (hkind : token.kind = .identifier)
    (hopen : next.takeKind? .lparen = some middle) (h : primary room start = .error error) :
    Viable (IsPhrase start.behindOperator .primary) start error.token := by
  obtain ⟨opening, hopening, hparen⟩ := Cursor.takeKind?_eq_some_iff.mp hopen
  have hleft := Nat.lt_trans (Cursor.left_lt_of_takeKind? hopen) (Cursor.left_lt_of_take? htake)
  have hspans : Spans start [token, opening] middle := .cons htake (.single hopening)
  have hbehind : middle.behindOperator = false := by
    rw [Cursor.behindOperator_of_take? hopening, hparen]
    rfl
  have hcall : ∀ v closing, closing.kind = .rparen → IsArguments v →
      IsPhrase start.behindOperator .primary ([token, opening] ++ (v ++ [closing])) := by
    rintro v closing hclosing (rfl | ⟨es, hes⟩)
    · exact ⟨_, .emptyCall hkind hparen hclosing⟩
    · exact ⟨_, .call hkind hparen hes hclosing⟩
  rw [primary_of_call htake hkind hopen] at h
  rcases exists_of_bind_eq_error h with h | ⟨inner, -, h⟩
  · exact absurd (fault_of_descend h) hfault
  rcases exists_of_bind_eq_error h with h | ⟨⟨es, behind, hle⟩, hes, h⟩
  · exact .enclosed hspans ((further middle hleft (values.of_spans hspans)).arguments inner error h
      hfault hbehind) hcall
  rcases exists_of_bind_eq_error h with h | ⟨closed, -, h⟩
  · rcases token_of_close h with hclose | hclose <;> rw [hclose]
    · exact .complete (.single htake) ⟨_, .reference hkind⟩
    · obtain ⟨w, hw, hcases⟩ := ((readsAt middle).arguments inner _ hes).derived hbehind
      refine .enclosed hspans (.complete hw ?_) hcall
      exact hcases.imp And.left fun hderives => ⟨es, hderives⟩
  · cases h

theorem fails_parenthesis (htake : start.take? = some (token, next)) (hkind : token.kind = .lparen)
    (h : primary room start = .error error) :
    Viable (IsPhrase start.behindOperator .primary) start error.token := by
  have hleft := Cursor.left_lt_of_take? htake
  have hbehind : next.behindOperator = false := by
    rw [Cursor.behindOperator_of_take? htake, hkind]
    rfl
  have henclosed : ∀ v closing, closing.kind = .rparen → IsPhrase false .sum v →
      IsPhrase start.behindOperator .primary ([token] ++ (v ++ [closing])) :=
    fun v closing hclosing ⟨e, he⟩ => ⟨e, .parenthesis hkind he hclosing⟩
  rw [primary_of_lparen htake hkind] at h
  rcases exists_of_bind_eq_error h with h | ⟨inner, -, h⟩
  · exact absurd (fault_of_descend h) hfault
  rcases exists_of_bind_eq_error h with h | ⟨⟨e, behind, hlt⟩, hsum, h⟩
  · have hinner := (further next hleft (values.of_take? htake)).sum inner error h hfault
    rw [hbehind] at hinner
    exact .enclosed (.single htake) (hinner.viable hbehind) henclosed
  rcases exists_of_bind_eq_error h with h | ⟨closed, -, h⟩
  · rcases token_of_close h with hclose | hclose <;> rw [hclose]
    · rw [← Cursor.current_of_take? htake]
      exact .missing start fun w e he => ⟨e, he _⟩
    · obtain ⟨w, hw, hderives⟩ := ((readsAt next).sum inner _ hsum).derived
      rw [hbehind] at hderives
      exact .enclosed (.single htake) (.complete hw ⟨e, hderives⟩) henclosed
  · cases h

theorem fails_primary (h : primary room start = .error error) :
    Blames (IsPhrase start.behindOperator .primary) start error.token := by
  by_cases hoperand : ∃ token next, start.take? = some (token, next) ∧
      (token.kind = .number ∨ token.kind = .identifier ∨ token.kind = .lparen)
  · obtain ⟨token, next, htake, hnumber | hname | hopen⟩ := hoperand
    · have member : token ∈ start.ahead := by
        rw [(Cursor.take?_eq_some_iff.mp htake).1]
        exact List.mem_cons_self
      obtain ⟨x, hx⟩ := values token member hnumber
      rw [primary_of_number htake hnumber, hx] at h
      rcases exists_of_bind_eq_error h with h | ⟨_, -, h⟩
      · rw [token_of_checkNumeral h]
        exact .inl (.complete (.single htake) ⟨_, .number hnumber hx⟩)
      · cases h
    · cases hcall : next.takeKind? .lparen with
      | some inside => exact .inl (fails_call further values hfault htake hname hcall h)
      | none =>
        rw [primary_of_variable htake hname hcall] at h
        cases h
    · exact .inl (fails_parenthesis further values hfault htake hopen h)
  · rw [primary_eq_error fun token next htake hkind => hoperand ⟨token, next, htake, hkind⟩] at h
    cases h
    exact blames_unexpected start _

theorem fails_power (h : power room start = .error error) :
    Blames (IsPhrase start.behindOperator .power) start error.token := by
  have hbase : ∀ w, IsPhrase start.behindOperator .primary w →
      IsPhrase start.behindOperator .power w := fun w => .imp fun e he => .base he
  rw [power] at h
  rcases exists_of_bind_eq_error h with h | ⟨⟨base, middle, hlt⟩, hprimary, h⟩
  · exact (fails_primary further values hfault h).mono hbase
  obtain ⟨w, hw, hderives⟩ := ((readsAt start).primary room _ hprimary).derived
  dsimp only at h
  split at h
  next next hpower =>
    obtain ⟨operator, htake, hkind⟩ := Cursor.takeKind?_eq_some_iff.mp hpower
    have hleft := Nat.lt_trans (Cursor.left_lt_of_takeKind? hpower) hlt
    have hoperator := Cursor.behindOperator_of_take? htake
    rw [hkind] at hoperator
    rcases exists_of_bind_eq_error h with h | ⟨inner, -, h⟩
    · exact absurd (fault_of_descend h) hfault
    rcases exists_of_bind_eq_error h with h | ⟨_, -, h⟩
    · have hexponent := (further next hleft ((values.of_spans hw).of_take? htake)).unary inner error
        h hfault
      rw [hoperator] at hexponent
      have hcomplete : Viable (fun v => IsPhrase start.behindOperator .power (w ++ v)) middle
          middle.current := .complete (.refl middle) ⟨base, by simpa using .base hderives⟩
      rw [Cursor.current_of_take? htake] at hcomplete
      refine .inl (.after hw (hexponent.behind htake (fun v hv => ?_) hcomplete) fun v hv => hv)
      obtain ⟨e, he⟩ := hv
      exact ⟨_, .power hderives hkind he⟩
    · cases h
  next => cases h

theorem fails_unary (h : Parser.unary room start = .error error) :
    Blames (IsPhrase start.behindOperator .unary) start error.token := by
  by_cases hsign : ∃ token next, start.take? = some (token, next) ∧
      (token.kind = .minus ∨ token.kind = .plus)
  · obtain ⟨token, next, htake, hkind⟩ := hsign
    have hleft := Cursor.left_lt_of_take? htake
    have hmissing : Viable (IsPhrase start.behindOperator .unary) start token := by
      rw [← Cursor.current_of_take? htake]
      exact .missing start fun w e he => ⟨e, .unsigned (.base (he _))⟩
    have hoperator : next.behindOperator = true := by
      rw [Cursor.behindOperator_of_take? htake]
      rcases hkind with hkind | hkind <;> rw [hkind] <;> rfl
    rw [unary_of_sign htake hkind] at h
    rcases exists_of_bind_eq_error h with h | ⟨_, hcheck, h⟩
    · rw [token_of_checkSign h]
      exact .inl hmissing
    rcases exists_of_bind_eq_error h with h | ⟨inner, -, h⟩
    · exact absurd (fault_of_descend h) hfault
    rcases exists_of_bind_eq_error h with h | ⟨_, -, h⟩
    · have hoperand := (further next hleft (values.of_take? htake)).unary inner error h hfault
      rw [hoperator] at hoperand
      rcases hoperand with hoperand | ⟨hprevious, -⟩
      · refine .inl (hoperand.position.after (.single htake) ?_)
        rintro v ⟨⟨e, he⟩, hposition⟩
        have htouches : start.behindOperator = true →
            ∃ first, v.head? = some first ∧ Touches token first := by
          intro hbehind
          obtain ⟨first, rest, rfl, -⟩ := he.starts
          refine ⟨first, rfl, ?_⟩
          rw [Touches, hposition first rfl, ← Cursor.following_of_take? htake]
          exact checkSign_eq_ok_iff.mp hcheck hbehind
        rcases hkind with hkind | hkind
        · exact ⟨_, .negative hkind htouches he⟩
        · exact ⟨_, .positive hkind htouches he⟩
      · cases (Cursor.take?_eq_some_iff.mp htake).2.1.symm.trans hprevious
        exact .inl hmissing
    · cases h
  · rw [unary_of_unsigned fun token next htake hkind => hsign ⟨token, next, htake, hkind⟩] at h
    exact (fails_power further values hfault h).mono fun w => .imp fun e he => .unsigned he

theorem fails_productRest {factors : List Expr} (h : productRest room factors start = .error error)
    {b : Bool} (hu : Derives b u (.factors factors)) :
    Viable (fun w => IsPhrase b .product (u ++ w)) start error.token := by
  by_cases hfactor : ∃ token next, start.take? = some (token, next) ∧
      (token.kind = .multiply ∨ token.kind = .divide ∨ token.kind = .modulo)
  · obtain ⟨token, next, htake, hkind⟩ := hfactor
    have hleft := Cursor.left_lt_of_take? htake
    have hoperator : next.behindOperator = true := by
      rw [Cursor.behindOperator_of_take? htake]
      rcases hkind with hkind | hkind | hkind <;> rw [hkind] <;> rfl
    rw [productRest_of_factor htake hkind] at h
    rcases exists_of_bind_eq_error h with h | ⟨⟨operand, middle, hlt⟩, hunary, h⟩
    · have hoperand := (further next hleft (values.of_take? htake)).unary room error h hfault
      rw [hoperator] at hoperand
      refine hoperand.behind htake ?_ ?_
      · rintro v ⟨e, he⟩
        exact ⟨_, derives_productOf (derives_factor hkind hu he)⟩
      · rw [← Cursor.current_of_take? htake]
        exact .complete (.refl start) ⟨_, by simpa using derives_productOf hu⟩
    rcases exists_of_bind_eq_error h with h | ⟨_, -, h⟩
    · obtain ⟨w, hw, hderives⟩ := ((readsAt next).unary room _ hunary).derived
      rw [hoperator] at hderives
      have hspans := Spans.cons htake hw
      have hrest := (further middle (Nat.lt_trans hlt hleft) (values.of_spans hspans)).productRest
        room _ error h hfault b _ (derives_factor hkind hu hderives)
      refine .after hspans hrest fun v hv => ?_
      simpa using hv
    · cases h
  · rw [productRest_end fun token next htake hkind => hfactor ⟨token, next, htake, hkind⟩] at h
    cases h

theorem fails_product (h : Parser.product room start = .error error) :
    Blames (IsPhrase start.behindOperator .product) start error.token := by
  rw [Parser.product] at h
  rcases exists_of_bind_eq_error h with h | ⟨⟨first, middle, hlt⟩, hunary, h⟩
  · exact (fails_unary further values hfault h).mono
      fun w => .imp fun e he => .onlyFactor (.factor he)
  rcases exists_of_bind_eq_error h with h | ⟨_, -, h⟩
  · obtain ⟨w, hw, hderives⟩ := ((readsAt start).unary room _ hunary).derived
    have hrest := (further middle hlt (values.of_spans hw)).productRest room _ error h hfault _ _
      (.factor hderives)
    exact .inl (.after hw hrest fun v hv => hv)
  · cases h

theorem fails_sumRest {operands : List Expr} (h : sumRest room operands start = .error error)
    {b : Bool} (hu : Derives b u (.summands operands)) :
    Viable (fun w => IsPhrase b .sum (u ++ w)) start error.token := by
  by_cases hsummand : ∃ token next, start.take? = some (token, next) ∧
      (token.kind = .plus ∨ token.kind = .minus)
  · obtain ⟨token, next, htake, hkind⟩ := hsummand
    have hleft := Cursor.left_lt_of_take? htake
    have hoperator : next.behindOperator = true := by
      rw [Cursor.behindOperator_of_take? htake]
      rcases hkind with hkind | hkind <;> rw [hkind] <;> rfl
    rw [sumRest_of_summand htake hkind] at h
    rcases exists_of_bind_eq_error h with h | ⟨⟨operand, middle, hlt⟩, hproduct, h⟩
    · have hoperand := (further next hleft (values.of_take? htake)).product room error h hfault
      rw [hoperator] at hoperand
      refine hoperand.behind htake ?_ ?_
      · rintro v ⟨e, he⟩
        exact ⟨_, derives_sumOf (derives_summand hkind hu he)⟩
      · rw [← Cursor.current_of_take? htake]
        exact .complete (.refl start) ⟨_, by simpa using derives_sumOf hu⟩
    rcases exists_of_bind_eq_error h with h | ⟨_, -, h⟩
    · obtain ⟨w, hw, hderives⟩ := ((readsAt next).product room _ hproduct).derived
      rw [hoperator] at hderives
      have hspans := Spans.cons htake hw
      have hrest := (further middle (Nat.lt_trans hlt hleft) (values.of_spans hspans)).sumRest
        room _ error h hfault b _ (derives_summand hkind hu hderives)
      refine .after hspans hrest fun v hv => ?_
      simpa using hv
    · cases h
  · rw [sumRest_end fun token next htake hkind => hsummand ⟨token, next, htake, hkind⟩] at h
    cases h

theorem fails_sum (h : Parser.sum room start = .error error) :
    Blames (IsPhrase start.behindOperator .sum) start error.token := by
  rw [Parser.sum] at h
  rcases exists_of_bind_eq_error h with h | ⟨⟨first, middle, hlt⟩, hproduct, h⟩
  · exact (fails_product further values hfault h).mono
      fun w => .imp fun e he => .onlySummand (.summand he)
  rcases exists_of_bind_eq_error h with h | ⟨_, -, h⟩
  · obtain ⟨w, hw, hderives⟩ := ((readsAt start).product room _ hproduct).derived
    have hrest := (further middle hlt (values.of_spans hw)).sumRest room _ error h hfault _ _
      (.summand hderives)
    exact .inl (.after hw hrest fun v hv => hv)
  · cases h

theorem fails_argumentsRest (h : argumentsRest room start = .error error) {e : Expr}
    (hu : Derives false u (.sum e)) :
    Viable (fun w => ∃ es, Derives false (u ++ w) (.arguments es)) start error.token := by
  rw [argumentsRest] at h
  split at h
  next next hcomma =>
    have hleft := Cursor.left_lt_of_takeKind? hcomma
    obtain ⟨comma, htake, hkind⟩ := Cursor.takeKind?_eq_some_iff.mp hcomma
    have hbehind : next.behindOperator = false := by
      rw [Cursor.behindOperator_of_take? htake, hkind]
      rfl
    rcases exists_of_bind_eq_error h with h | ⟨⟨first, middle, hlt⟩, hsum, h⟩
    · have hfirst := (further next hleft (values.of_take? htake)).sum room error h hfault
      rw [hbehind] at hfirst
      refine (hfirst.viable hbehind).after (.single htake) ?_
      rintro v ⟨e', he'⟩
      exact ⟨_, .arguments hu hkind (.argument he')⟩
    rcases exists_of_bind_eq_error h with h | ⟨_, -, h⟩
    · obtain ⟨w, hw, hderives⟩ := ((readsAt next).sum room _ hsum).derived
      rw [hbehind] at hderives
      have hspans := Spans.cons htake hw
      have hrest := (further middle (Nat.lt_trans hlt hleft)
        (values.of_spans hspans)).argumentsRest room error h hfault _ _ hderives
      refine .after hspans hrest ?_
      rintro v ⟨es, hes⟩
      exact ⟨_, .arguments hu hkind hes⟩
    · cases h
  next => cases h

theorem fails_arguments (h : Parser.arguments room start = .error error)
    (hbehind : start.behindOperator = false) : Viable IsArguments start error.token := by
  rw [Parser.arguments] at h
  split at h
  next => cases h
  next =>
    rcases exists_of_bind_eq_error h with h | ⟨⟨first, middle, hlt⟩, hsum, h⟩
    · have hfirst := fails_sum further values hfault h
      rw [hbehind] at hfirst
      refine (hfirst.viable hbehind).mono fun w hw => ?_
      obtain ⟨e, he⟩ := hw
      exact .inr ⟨[e], .argument he⟩
    rcases exists_of_bind_eq_error h with h | ⟨_, -, h⟩
    · obtain ⟨w, hw, hderives⟩ := ((readsAt start).sum room _ hsum).derived
      rw [hbehind] at hderives
      have hrest := (further middle hlt (values.of_spans hw)).argumentsRest room error h hfault _ _
        hderives
      exact .after hw hrest fun v hv => .inr hv
    · cases h

end Steps

theorem failsAt (start : Cursor) (values : HasValues start) : FailsAt start := by
  -- by induction on the tokens ahead
  have further : ∀ rest : Cursor, rest.left < start.left → HasValues rest → FailsAt rest :=
    fun rest _ => failsAt rest
  exact {
    sum := fun _ _ h hfault => fails_sum further values hfault h
    sumRest := fun _ _ _ h hfault _ _ => fails_sumRest further values hfault h
    product := fun _ _ h hfault => fails_product further values hfault h
    productRest := fun _ _ _ h hfault _ _ => fails_productRest further values hfault h
    unary := fun _ _ h hfault => fails_unary further values hfault h
    arguments := fun _ _ h hfault => fails_arguments further values hfault h
    argumentsRest := fun _ _ h hfault _ _ => fails_argumentsRest further values hfault h }
termination_by start.left

theorem fails_statement (h : statement room start = .error error) (hfault : error.fault ≠ .tooDeep)
    (values : HasValues start) (hbehind : start.behindOperator = false) :
    Viable (fun w => ∃ e, Statement w e) start error.token := by
  unfold statement at h
  rcases exists_of_bind_eq_error h with h | ⟨⟨target, middle, hlt⟩, hsum, h⟩
  · have htarget := (failsAt start values).sum room error h hfault
    rw [hbehind] at htarget
    exact (htarget.viable hbehind).mono fun w => .imp fun e he => .sum he
  obtain ⟨w, hw, hderives⟩ := ((readsAt start).sum room _ hsum).derived
  rw [hbehind] at hderives
  dsimp only at h
  split at h
  next next hassign =>
    obtain ⟨equals, htake, hkind⟩ := Cursor.takeKind?_eq_some_iff.mp hassign
    split at h
    next =>
      cases h
      exact .complete hw ⟨_, .sum hderives⟩
    next hname =>
      have hnext : next.behindOperator = false := by
        rw [Cursor.behindOperator_of_take? htake, hkind]
        rfl
      rcases exists_of_bind_eq_error h with h | ⟨_, -, h⟩
      · have hvalue := (failsAt next ((values.of_spans hw).of_take? htake)).sum room error h hfault
        rw [hnext] at hvalue
        refine (hvalue.viable hnext).after (hw.append (.single htake)) ?_
        rintro v ⟨e, he⟩
        cases target with
        | «variable» name => exact ⟨_, by simpa using .assignment hderives hkind he⟩
        | _ => exact absurd rfl hname
      · cases h
  next => cases h

/-- Behind a statement the parser complains about the next token. -/
theorem token_of_boundary (h : boundary force start = .error error)
    (hbehind : start.behindOperator = false) : error.token = start.current := by
  have hunexpected : (unexpected start).token = start.current := by
    refine (token_of_unexpected start).resolve_right fun ⟨hprevious, hkind⟩ => ?_
    rw [Cursor.behindOperator, hprevious, Option.any_some, hkind] at hbehind
    cases hbehind
  unfold boundary at h
  dsimp only at h
  split_ifs at h
  · cases h
  · cases h
    exact hunexpected
  · cases h
  · split at h
    next =>
      split_ifs at h <;> cases h
      rfl
    next => cases h

/-- Where statements fail those before and the one that fails can be completed. Nothing is supplied
where the next token cannot begin a statement. -/
def Resumes (force separated : Bool) (start : Cursor) (token : Token) : Prop :=
  ∃ p text q stop es, Spans start p stop ∧ stop.current = token ∧ Supplies token.place text q ∧
    (p = [] → q = []) ∧ Remainder force separated es (p ++ q)

theorem Resumes.here (separated : Bool) (start : Cursor) :
    Resumes force separated start start.current :=
  ⟨[], [], [], start, [], .refl start, rfl, .nil, fun _ => rfl, .none (by simp [Semicolons])⟩

theorem resumes_of_statements {separated : Bool}
    (h : statements room force separated start = .error error) (hfault : error.fault ≠ .tooDeep)
    (values : HasValues start) (hbehind : start.behindOperator = false) :
    Resumes force separated start error.token := by
  fun_induction statements room force separated start with
  | case1 separated start next hsemicolon _ ih =>
    obtain ⟨token, htake, hkind⟩ := Cursor.takeKind?_eq_some_iff.mp hsemicolon
    have hnext : next.behindOperator = false := by
      rw [Cursor.behindOperator_of_take? htake, hkind]
      rfl
    obtain ⟨p, text, q, stop, es, hp, hstop, hq, -, hrest⟩ := ih h (values.of_take? htake) hnext
    exact ⟨token :: p, text, q, stop, es, .cons htake hp, hstop, hq, by simp, hrest.semicolon hkind⟩
  | case2 => cases h
  | case3 separated start hnone token =>
    cases h
    exact .here separated start
  | case4 separated start hnone token =>
    cases h
    exact .here separated start
  | case5 separated start hnone token heof hparen hseparated =>
    rename_i ih
    obtain rfl : separated = true := by simpa using hseparated
    rcases exists_of_bind_eq_error h with h | ⟨⟨first, middle, hlt⟩, hfirst, h⟩
    · obtain ⟨p, text, q, stop, hp, hstop, hq, e, he⟩ :=
        fails_statement h hfault values hbehind
      cases p with
      | nil =>
        rw [← hstop, hp.eq_of_nil]
        exact .here true start
      | cons token p =>
        refine ⟨token :: p, text, q, stop, [e], hp, hstop, hq, by simp, ?_⟩
        have hnone : Semicolons [] := by simp [Semicolons]
        simpa using Remainder.statements hnone (.one he) hnone fun _ => rfl
    obtain ⟨w, hw, hstatement, hends⟩ :=
      exists_statement_of_reads (readsStatement_of_statement hfirst) hbehind
    have hmiddle := behindOperator_of_stops hw hstatement.stops
    rcases exists_of_bind_eq_error h with h | ⟨separated, hboundary, h⟩
    · rw [token_of_boundary h hmiddle]
      have hnone : Remainder force false [] [] := .none (by simp [Semicolons])
      have hall : Remainder force true [_] (w ++ []) := hnone.cons hstatement (by simp)
      refine ⟨w, [], [], middle, _, hw, rfl, .nil, fun _ => rfl, hall⟩
    rcases exists_of_bind_eq_error h with h | ⟨_, -, h⟩
    · obtain ⟨p, text, q, stop, es, hp, hstop, hq, hempty, hrest⟩ :=
        ih middle hlt separated h (values.of_spans hw) hmiddle
      have hall : Remainder force true (first :: es) (w ++ (p ++ q)) := by
        refine hrest.cons hstatement fun hseparated hstarts => ?_
        cases p with
        | nil => simp [hempty rfl] at hstarts
        | cons token p =>
          obtain ⟨first, others, heq, hkind⟩ := hstarts
          have hfirst : token = first := by simpa using congrArg List.head? heq
          have hapart := apart_of_boundary hstatement hw hends (hseparated ▸ hboundary) hp
            ⟨token, p, rfl, hfirst ▸ hkind⟩
          exact hapart.congr rfl rfl
      have hstarts : w ++ p = [] → q = [] := by
        intro hnil
        obtain ⟨token, rest, rfl, -⟩ := hstatement.starts
        cases hnil
      exact ⟨w ++ p, text, q, stop, _, hw.append hp, hstop, hq, hstarts,
        by rwa [List.append_assoc]⟩
    · cases h

/-- Semicolons alone are completed by a statement behind them. -/
theorem viable_of_semicolons (hu : Semicolons u) (hw : Spans start u stop) :
    Viable (fun w => ∃ e, Grammar.Program force w e) start stop.current := by
  have hmissing : Viable (fun w => ∃ e, Grammar.Program force (u ++ w) e) stop stop.current := by
    refine .missing stop fun w e he => ?_
    have hstatement : Statement w e := .sum (derives_sum_of_unary (.unsigned (.base (he false))))
    have hnone : Semicolons [] := by simp [Semicolons]
    exact ⟨e, by simpa using Grammar.Program.statement hu hstatement hnone⟩
  exact .after hw hmissing fun v hv => hv

theorem viable_of_resumes (h : Resumes force true start token) :
    Viable (fun w => ∃ e, Grammar.Program force w e) start token := by
  obtain ⟨p, text, q, stop, es, hp, rfl, hq, -, hrest⟩ := h
  generalize htokens : p ++ q = tokens at hrest
  cases hrest with
  | none hu =>
    exact viable_of_semicolons
      (fun token member => hu token (htokens ▸ List.mem_append_left q member)) hp
  | @statements u w v es hu hw hv _ =>
    refine ⟨p, text, q, stop, hp, rfl, hq, ?_⟩
    rw [htokens]
    match es, hw with
    | [e], .one hstatement => exact ⟨e, .statement hu hstatement hv⟩
    | first :: second :: rest, hw => exact ⟨_, .block hu hw (by simp) hv⟩

theorem viable_of_program (h : program room force start = .error error)
    (hfault : error.fault ≠ .tooDeep) (values : HasValues start)
    (hbehind : start.behindOperator = false) (heof : ∀ token ∈ start.ahead, token.kind ≠ .eof) :
    Viable (fun w => ∃ e, Grammar.Program force w e) start error.token := by
  unfold program at h
  rcases exists_of_bind_eq_error h with h | ⟨es, hes, h⟩
  · exact viable_of_resumes (resumes_of_statements h hfault values hbehind)
  · match es, h with
    | [], h =>
      cases h
      obtain ⟨stop, hstop, hend⟩ := Spans.exists_stop (List.append_nil start.ahead).symm
      have hrest := remainder_of_reads (readsStatements_of_statements hes) hbehind heof
      generalize start.ahead = tokens at hrest hstop
      cases hrest with
      | none hu =>
        have hlast : stop.current = start.last := by
          rw [Cursor.current, hend, List.headD_nil, hstop.last]
        rw [← hlast]
        exact viable_of_semicolons hu hstop
      | statements _ hw _ _ => cases hw
    | [only], h => cases h
    | first :: second :: rest, h => cases h

end Parser

/-- Where a row of tokens is divided the text is, too: in front of the token that comes next, or at
the end. -/
theorem exists_cut {text : String} {p ahead : List Token}
    (h : tokensFrom standard text .start text.toList = .ok (p ++ ahead)) :
    ∃ before behind, text.toList = before ++ behind ∧
      (ahead.headD (.atEnd text.toList)).place = Text.Place.start.advance before ∧
      tokensFrom standard text .start before = .ok p := by
  cases ahead with
  | nil =>
    rw [List.append_nil] at h
    exact ⟨text.toList, [], (List.append_nil _).symm, rfl, h⟩
  | cons token ahead =>
    have member : token ∈ p ++ token :: ahead := by simp
    obtain ⟨before, behind, htext, -, hplace⟩ := exists_place h member
    have hlt := position_lt_stop h member
    have hpairwise := pairwise_of_tokensFrom h
    obtain ⟨-, hahead, hbefore⟩ := List.pairwise_append.mp hpairwise
    have hposition : token.position = Text.Place.start.position + before.length := by
      rw [Token.position, hplace, Text.Place.position_advance]
    rw [htext] at h
    refine ⟨before, behind, htext, hplace, (tokensFrom_cut h ?_ ?_).1⟩
    · intro other member
      rw [← hposition]
      exact hbefore other member token List.mem_cons_self
    · rw [← hposition, List.forall_mem_cons]
      refine ⟨Nat.le_refl _, fun other member => ?_⟩
      have hle := (List.pairwise_cons.mp hahead).1 other member
      omega

theorem exists_tokens_of_error {room : Room} {force : Bool} {text : String} {error : ParseError}
    (h : parse room force (some text) = .error (.grammatical error)) :
    ∃ tokens, lex TokenRule.standard (some text) = .ok tokens ∧
      Parser.program room force (.ofTokens text tokens) = .error error := by
  cases lexed : lex TokenRule.standard (some text) with
  | error cause =>
    rw [parse_of_lex_error lexed] at h
    cases h
  | ok tokens => exact ⟨tokens, rfl, (parse_eq_error_iff_of_lex lexed).mp h⟩

/-- A complaint that is not about the depth is about a token of the text, or about its end, and what
stands before that token can be completed to a program. -/
theorem completable_of_error {room : Room} {force : Bool} {text : String} {error : ParseError}
    (h : parse room force (some text) = .error (.grammatical error))
    (hfault : error.fault ≠ .tooDeep) :
    (∃ tokens, tokenize TokenRule.standard (some text) = .ok tokens ∧ error.token ∈ tokens) ∧
      error.position ≤ text.length ∧
      ∃ w tree, parse .unlimited force
        (some (String.ofList (text.toList.take error.position ++ w))) = .ok tree := by
  obtain ⟨tokens, lexed, hprogram⟩ := exists_tokens_of_error h
  have values : ∀ token ∈ tokens, token.kind = .number →
      ∃ x, Decimal.readNumeral false token.text.toList = some x :=
    fun _ => exists_value_of_lex lexed
  have heof : ∀ token ∈ tokens, token.kind ≠ .eof := fun _ => kind_ne_eof_of_lex lexed
  obtain ⟨p, supply, q, stop, hp, hstop, hq, e, hgood⟩ :=
    Parser.viable_of_program hprogram hfault values rfl heof
  obtain rfl : tokens = p ++ stop.ahead := hp.ahead
  have hcurrent : stop.ahead.headD (.atEnd text.toList) = error.token := by
    rw [← hstop, Cursor.current, hp.last]
    rfl
  obtain ⟨before, behind, htext, hplace, hbefore⟩ := exists_cut lexed
  rw [hcurrent] at hplace
  have hposition : error.position = before.length := by
    rw [ParseError.position, Token.position, hplace, Text.Place.position_advance]
    exact Nat.zero_add _
  have htake : text.toList.take error.position = before := by
    rw [hposition, htext, List.take_left]
  refine ⟨⟨_, by rw [tokenize, lexed]; rfl, ?_⟩, ?_, supply, ?_⟩
  · cases hahead : stop.ahead with
    | nil =>
      rw [hahead] at hcurrent
      simp [← hcurrent]
    | cons token rest =>
      rw [hahead] at hcurrent
      simp [← hcurrent]
  · rw [← String.length_toList, htext, List.length_append, hposition]
    exact Nat.le_add_right _ _
  · rw [htake]
    rw [hplace] at hq
    have hlexed : lex TokenRule.standard (some (String.ofList (before ++ supply))) =
        .ok (p ++ q) := by
      rw [lex, String.toList_ofList]
      exact hq.tokensFrom_behind (tokensFrom_whole _ hbefore)
    exact ⟨e, parse_of_program hlexed hgood⟩

def danglingSource : String := "rate = 2; f(rate, -(x * ) + 1"

theorem completable_of_error_dangling :
    ∃ error, parse .standard true (some danglingSource) = .error (.grammatical error) ∧
      error.fault = .dangling "*" ∧ error.position ≤ danglingSource.length ∧
      ∃ w tree, parse .unlimited true
        (some (String.ofList (danglingSource.toList.take error.position ++ w))) = .ok tree := by
  have hprobe : (match parse .standard true (some danglingSource) with
      | .error (.grammatical error) => decide (error.fault = .dangling "*")
      | _ => false) = true := by decide +kernel
  split at hprobe
  next error herror =>
    have hfault : error.fault = .dangling "*" := of_decide_eq_true hprobe
    obtain ⟨-, hposition, hcomplete⟩ := completable_of_error herror (by simp [hfault])
    exact ⟨error, herror, hfault, hposition, hcomplete⟩
  next => cases hprobe

end Formula
