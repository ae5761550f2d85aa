import Formula.Proofs.Parser.Viable
import Formula.Proofs.Parser.Walk

namespace Formula

variable {α β γ δ : Type}

/-- A walk that breaks off with the complaint of a step, which is not about the depth, or yields
what goes with the result of the step. -/
def Walks (R : α → β → Prop) (walk : Walk α) : Except ParseError β → Prop
  | .ok result => ∃ value, walk = pure value ∧ R value result
  | .error error => walk = throw (.refused error) ∧ error.fault ≠ .tooDeep

namespace Walks

variable {R : α → β → Prop} {S : γ → δ → Prop} {walk : Walk α} {step : Except ParseError β}

protected theorem pure {value : α} {result : β} (h : R value result) :
    Walks R (pure value) (pure result) :=
  ⟨value, rfl, h⟩

theorem refused {error : ParseError} (h : error.fault ≠ .tooDeep) :
    Walks R (throw (.refused error)) (.error error) :=
  ⟨rfl, h⟩

theorem bind {next : α → Walk γ} {next' : β → Except ParseError δ} (h : Walks R walk step)
    (hnext : ∀ value result, R value result → Walks S (next value) (next' result)) :
    Walks S (walk >>= next) (step >>= next') := by
  cases step with
  | error error =>
    obtain ⟨rfl, hfault⟩ := h
    exact ⟨rfl, hfault⟩
  | ok result =>
    obtain ⟨value, rfl, hvalue⟩ := h
    rw [pure_bind]
    exact hnext value result hvalue

/-- What the step still does to its last result the walk need not do. -/
theorem last {next' : β → Except ParseError δ} {S : α → δ → Prop} (h : Walks R walk step)
    (hnext : ∀ value result, R value result → Walks S (Pure.pure value) (next' result)) :
    Walks S walk (step >>= next') := by
  rw [← bind_pure walk]
  exact h.bind hnext

/-- A check that both make. -/
theorem check {step : Except ParseError β}
    (h : ∀ error, step = .error error → error.fault ≠ .tooDeep) :
    Walks Eq (Row.check step) step := by
  cases step with
  | error error => exact ⟨rfl, h error rfl⟩
  | ok value => exact ⟨value, rfl, rfl⟩

end Walks

theorem Parser.close_of_none {cursor : Cursor} (h : cursor.takeKind? .rparen = none)
    (opening : Token) (inCall : Bool) :
    close opening inCall cursor =
      if cursor.current.kind = .eof then .error ⟨.unclosed, opening⟩
      else .error ⟨.expectedClosing inCall, cursor.current⟩ := by
  unfold close
  split
  next rest hclose => cases h.symm.trans hclose
  next => rfl

theorem Parser.fault_of_unexpected (cursor : Cursor) : (unexpected cursor).fault ≠ .tooDeep := by
  unfold unexpected
  dsimp only
  split
  next => split_ifs <;> simp
  next => split_ifs <;> simp

theorem Parser.fault_of_boundary {force : Bool} {cursor : Cursor} {error : ParseError}
    (h : boundary force cursor = .error error) : error.fault ≠ .tooDeep := by
  unfold boundary at h
  dsimp only at h
  split_ifs at h
  · cases h
  · cases h
    exact fault_of_unexpected cursor
  · cases h
  · split at h
    next =>
      split_ifs at h <;> cases h
      simp
    next => cases h

namespace Row

variable {row : Row} {depth i : Nat} {cursor next : Cursor} {token : Token}

/-- A cursor stands at a position of a row. -/
structure At (row : Row) (i : Nat) (cursor : Cursor) : Prop where
  bounded : i ≤ row.tokens.length
  ahead : cursor.ahead = row.tokens.drop i
  last : cursor.last = row.last
  previous : row.previous i = pure cursor.previous

theorem at_zero (row : Row) : row.At 0 ⟨none, row.tokens, row.last⟩ :=
  ⟨Nat.zero_le _, rfl, rfl, rfl⟩

namespace At

theorem all_eq (h : row.At i cursor) : row.all[i]? = some cursor.current := by
  rw [all, Cursor.current, h.ahead, h.last]
  rcases Nat.lt_or_eq_of_le h.bounded with hlt | rfl
  · rw [List.getElem?_append_left hlt, List.drop_eq_getElem_cons hlt, List.getElem?_eq_getElem hlt]
    rfl
  · simp

theorem current (h : row.At i cursor) : row.current i = cursor.current := by
  rw [Row.current, h.all_eq, Option.getD_some]

theorem view (h : row.At i cursor) :
    row.view i = pure ⟨cursor.previous, [], cursor.current⟩ := by
  rw [Row.view, h.previous, h.current]
  rfl

theorem step (h : row.At i cursor) (htake : cursor.take? = some (token, next)) :
    row.advance i = pure (token, i + 1) ∧ row.At (i + 1) next := by
  obtain ⟨hahead, hprevious, hlast⟩ := Cursor.take?_eq_some_iff.mp htake
  have hlt : i < row.tokens.length := by
    by_contra hge
    rw [h.ahead, List.drop_eq_nil_of_le (Nat.le_of_not_lt hge)] at hahead
    cases hahead
  have hcurrent := Cursor.current_of_take? htake
  refine ⟨?_, hlt, ?_, hlast.trans h.last, ?_⟩
  · rw [advance, if_pos hlt, h.current, hcurrent]
  · rw [h.ahead, List.drop_eq_getElem_cons hlt] at hahead
    exact (List.cons.inj hahead).2.symm
  · rw [Row.previous, read, h.all_eq, hprevious, hcurrent]
    rfl

/-- The token behind the current one is there wherever the current one is not the last. -/
theorem read_following (h : row.At i cursor) (htake : cursor.take? = some (token, next)) :
    row.read (i + 1) = pure cursor.following := by
  rw [read, (h.step htake).2.all_eq, Cursor.following_of_take? htake]

/-- What is no end of the input can be taken. -/
theorem exists_take (h : row.At i cursor) (hlast : row.last.kind = .eof)
    (hkind : (row.current i).kind ≠ .eof) :
    ∃ next, cursor.take? = some (row.current i, next) := by
  rw [h.current] at hkind ⊢
  cases hahead : cursor.ahead with
  | nil =>
    rw [Cursor.current, hahead, List.headD_nil, h.last] at hkind
    exact absurd hlast hkind
  | cons token rest =>
    refine ⟨⟨some token, rest, cursor.last⟩, ?_⟩
    rw [Cursor.current, Cursor.take?, hahead]
    rfl

theorem kind_ne (h : row.At i cursor) (hlast : row.last.kind = .eof) {kind : TokenKind}
    (heof : kind ≠ .eof) (hnone : cursor.takeKind? kind = none) : (row.current i).kind ≠ kind := by
  intro hkind
  obtain ⟨next, htake⟩ := h.exists_take hlast (hkind ▸ heof)
  exact Cursor.takeKind?_eq_none_iff.mp hnone _ _ htake hkind

theorem takeKind?_eq_none (h : row.At i cursor) {kind : TokenKind}
    (hkind : (row.current i).kind ≠ kind) : cursor.takeKind? kind = none := by
  refine Cursor.takeKind?_eq_none_iff.mpr fun token next htake => ?_
  rwa [← Cursor.current_of_take? htake, ← h.current]

/-- The end of the input stands behind all tokens only. -/
theorem eq_length (h : row.At i cursor) (heof : ∀ token ∈ row.tokens, token.kind ≠ .eof)
    (hkind : cursor.current.kind = .eof) : i = row.tokens.length := by
  refine (Nat.lt_or_eq_of_le h.bounded).resolve_left fun hlt => ?_
  rw [Cursor.current, h.ahead, List.drop_eq_getElem_cons hlt] at hkind
  exact heof _ (List.getElem_mem hlt) hkind

end At

/-- A walk and a step yield the same tree and stand at the same place. -/
def Same (row : Row) (cursor : Cursor) (value : Expr × Nat) (result : Parsed cursor) : Prop :=
  value.1 = result.tree ∧ row.At value.2 result.rest

def SameRest (row : Row) (cursor : Cursor) (value : α × Nat) (result : ParsedRest α cursor) :
    Prop :=
  value.1 = result.result ∧ row.At value.2 result.rest

/-- A walk from a position does what the parser does there. How deep its calls nest is bounded by
what is left to take, and by how far down the levels of the grammar it starts. -/
structure WalksAt (row : Row) (i : Nat) (cursor : Cursor) : Prop where
  sum : ∀ {depth}, 8 * cursor.left + 6 < depth →
    Walks (row.Same cursor) (row.sum depth i) (Parser.sum .unlimited cursor)
  sumRest : ∀ {depth} operands, 8 * cursor.left + 6 < depth →
    Walks (row.SameRest cursor) (row.sumRest depth operands i)
      (Parser.sumRest .unlimited operands cursor)
  product : ∀ {depth}, 8 * cursor.left + 5 < depth →
    Walks (row.Same cursor) (row.product depth i) (Parser.product .unlimited cursor)
  productRest : ∀ {depth} factors, 8 * cursor.left + 5 < depth →
    Walks (row.SameRest cursor) (row.productRest depth factors i)
      (Parser.productRest .unlimited factors cursor)
  unary : ∀ {depth}, 8 * cursor.left + 4 < depth →
    Walks (row.Same cursor) (row.unary depth i) (Parser.unary .unlimited cursor)
  arguments : ∀ {depth}, 8 * cursor.left + 7 < depth →
    Walks (row.SameRest cursor) (row.arguments depth i) (Parser.arguments .unlimited cursor)
  argumentsRest : ∀ {depth}, 8 * cursor.left + 7 < depth →
    Walks (row.SameRest cursor) (row.argumentsRest depth i)
      (Parser.argumentsRest .unlimited cursor)

section Steps

theorem walks_unexpected {R : α → β → Prop} (h : row.At i cursor) :
    Walks R (row.unexpected i) (.error (Parser.unexpected cursor)) := by
  have hsame : Parser.unexpected ⟨cursor.previous, [], cursor.current⟩ =
      Parser.unexpected cursor := rfl
  rw [Row.unexpected, h.view, pure_bind, hsame]
  exact .refused (Parser.fault_of_unexpected cursor)

theorem walks_close (hlast : row.last.kind = .eof) (h : row.At i cursor) (opening : Token)
    (inCall : Bool) :
    Walks (fun j (rest : { rest : Cursor // rest.left < cursor.left }) => row.At j rest.1)
      (row.close opening inCall i) (Parser.close opening inCall cursor) := by
  by_cases hkind : (row.current i).kind = .rparen
  · obtain ⟨next, htake⟩ := h.exists_take hlast (by rw [hkind]; decide)
    obtain ⟨hadvance, hnext⟩ := h.step htake
    obtain ⟨hleft, hclose⟩ := Parser.close_of_takeKind? (Parser.takeKind?_of_take? htake hkind)
    rw [Row.close, if_pos hkind, hadvance, hclose]
    exact .pure hnext
  · rw [Row.close, if_neg hkind, Parser.close_of_none (h.takeKind?_eq_none hkind), h.current]
    split_ifs <;> exact .refused (by simp)

theorem walks_checkSign (h : row.At i cursor) (htake : cursor.take? = some (token, next)) :
    Walks Eq (row.checkSign i) (Parser.checkSign token cursor) := by
  rw [Row.checkSign, Parser.checkSign, h.previous, pure_bind, h.read_following htake, h.current,
    Cursor.current_of_take? htake]
  cases cursor.previous with
  | none => exact .pure rfl
  | some previous =>
    dsimp only
    by_cases hoperator : previous.kind.isOperator = true
    · simp only [hoperator, if_true, pure_bind, Bool.true_and]
      split_ifs
      · exact .refused (by simp)
      · exact .pure rfl
    · simp only [hoperator, Bool.false_eq_true, if_false, Bool.false_and]
      exact .pure rfl

theorem walks_number (values : Parser.HasValues ⟨none, row.tokens, row.last⟩)
    (h : row.At i cursor) (htake : cursor.take? = some (token, next))
    (hkind : token.kind = .number) :
    Walks (row.Same cursor) (row.primary (depth + 1) i) (Parser.primary .unlimited cursor) := by
  obtain ⟨hadvance, hnext⟩ := h.step htake
  have hcurrent : row.current i = token := by rw [h.current, Cursor.current_of_take? htake]
  have member : token ∈ row.tokens := by
    have hahead := (Cursor.take?_eq_some_iff.mp htake).1
    rw [h.ahead] at hahead
    exact List.mem_of_mem_drop (hahead ▸ List.mem_cons_self)
  obtain ⟨x, hx⟩ := values token member hkind
  rw [Row.primary, hcurrent, hkind, Parser.primary_of_number htake hkind, hx]
  dsimp only
  rw [hadvance, pure_bind, hnext.current]
  refine (Walks.check fun error herror => ?_).bind ?_
  · unfold Parser.checkNumeral at herror
    split at herror <;> cases herror
    simp
  · rintro _ _ -
    rw [Row.value, hx]
    exact .pure ⟨rfl, hnext⟩

-- Every step may rely on the steps further on, and on those below it at the same position.
variable (hlast : row.last.kind = .eof) (values : Parser.HasValues ⟨none, row.tokens, row.last⟩)
  (further : ∀ j rest, row.At j rest → rest.left < cursor.left → row.WalksAt j rest)
include hlast further

theorem walks_call (h : row.At i cursor) (htake : cursor.take? = some (token, next))
    (hkind : token.kind = .identifier) (hdepth : 8 * cursor.left + 1 < depth) :
    Walks (row.Same cursor) (row.primary (depth + 1) i) (Parser.primary .unlimited cursor) := by
  obtain ⟨hadvance, hnext⟩ := h.step htake
  have hleft := Cursor.left_lt_of_take? htake
  have hcurrent : row.current i = token := by rw [h.current, Cursor.current_of_take? htake]
  rw [Row.primary, hcurrent, hkind]
  dsimp only
  rw [hadvance, pure_bind]
  by_cases hopen : (row.current (i + 1)).kind = .lparen
  · obtain ⟨inside, hopening⟩ := hnext.exists_take hlast (by rw [hopen]; decide)
    obtain ⟨hadvance', hinside⟩ := hnext.step hopening
    have hleft' := Cursor.left_lt_of_take? hopening
    rw [Parser.primary_of_call htake hkind (Parser.takeKind?_of_take? hopening hopen),
      Parser.descend_unlimited, Parser.ok_bind]
    dsimp only
    rw [if_pos hopen, hadvance', pure_bind, ← hnext.current]
    refine ((further _ _ hinside (by omega)).arguments (by omega)).bind ?_
    rintro ⟨values, j⟩ ⟨_, behind, hle⟩ ⟨rfl, hbehind⟩
    refine (walks_close hlast hbehind _ true).bind ?_
    rintro j ⟨stop, hlt⟩ hstop
    exact .pure ⟨rfl, hstop⟩
  · rw [Parser.primary_of_variable htake hkind (hnext.takeKind?_eq_none hopen)]
    dsimp only
    rw [if_neg hopen]
    exact .pure ⟨rfl, hnext⟩

theorem walks_parenthesis (h : row.At i cursor) (htake : cursor.take? = some (token, next))
    (hkind : token.kind = .lparen) (hdepth : 8 * cursor.left + 1 < depth) :
    Walks (row.Same cursor) (row.primary (depth + 1) i) (Parser.primary .unlimited cursor) := by
  obtain ⟨hadvance, hnext⟩ := h.step htake
  have hleft := Cursor.left_lt_of_take? htake
  have hcurrent : row.current i = token := by rw [h.current, Cursor.current_of_take? htake]
  rw [Row.primary, hcurrent, hkind, Parser.primary_of_lparen htake hkind, Parser.descend_unlimited,
    Parser.ok_bind]
  dsimp only
  rw [hadvance, pure_bind]
  refine ((further _ _ hnext hleft).sum (by omega)).bind ?_
  rintro ⟨e, j⟩ ⟨_, behind, hlt⟩ ⟨rfl, hbehind⟩
  refine (walks_close hlast hbehind _ false).bind ?_
  rintro j ⟨stop, hlt'⟩ hstop
  exact .pure ⟨rfl, hstop⟩

include values

theorem walks_primary (h : row.At i cursor) (hdepth : 8 * cursor.left + 2 < depth) :
    Walks (row.Same cursor) (row.primary depth i) (Parser.primary .unlimited cursor) := by
  obtain ⟨less, rfl⟩ := Nat.exists_eq_add_one_of_ne_zero (Nat.ne_zero_of_lt hdepth)
  by_cases hoperand : (row.current i).kind = .number ∨ (row.current i).kind = .identifier ∨
      (row.current i).kind = .lparen
  · obtain ⟨next, htake⟩ := h.exists_take hlast
      (by rcases hoperand with h | h | h <;> rw [h] <;> decide)
    rcases hoperand with hnumber | hname | hopen
    · exact walks_number values h htake hnumber
    · exact walks_call hlast further h htake hname (by omega)
    · exact walks_parenthesis hlast further h htake hopen (by omega)
  · rw [Parser.primary_eq_error fun token next htake => ?_, Row.primary]
    · split
      next hkind => exact absurd (.inl hkind) hoperand
      next hkind => exact absurd (.inr (.inl hkind)) hoperand
      next hkind => exact absurd (.inr (.inr hkind)) hoperand
      next => exact walks_unexpected h
    · rwa [← Cursor.current_of_take? htake, ← h.current]

theorem walks_power (h : row.At i cursor) (hdepth : 8 * cursor.left + 3 < depth) :
    Walks (row.Same cursor) (row.power depth i) (Parser.power .unlimited cursor) := by
  obtain ⟨less, rfl⟩ := Nat.exists_eq_add_one_of_ne_zero (Nat.ne_zero_of_lt hdepth)
  rw [Row.power, Parser.power]
  refine (walks_primary hlast values further h (by omega)).bind ?_
  rintro ⟨base, j⟩ ⟨_, middle, hlt⟩ ⟨rfl, hmiddle⟩
  dsimp only at hmiddle ⊢
  by_cases hkind : (row.current j).kind = .power
  · obtain ⟨next, htake⟩ := hmiddle.exists_take hlast (by rw [hkind]; decide)
    obtain ⟨hadvance, hnext⟩ := hmiddle.step htake
    have hleft := Cursor.left_lt_of_take? htake
    have hpower := Parser.takeKind?_of_take? htake hkind
    rw [if_pos hkind, hadvance, pure_bind]
    split
    next other hother =>
      cases hpower.symm.trans hother
      refine ((further _ _ hnext (by omega)).unary (by omega)).bind ?_
      rintro ⟨exponent, j⟩ ⟨_, stop, hlt'⟩ ⟨rfl, hstop⟩
      exact .pure ⟨rfl, hstop⟩
    next hnone => cases hpower.symm.trans hnone
  · rw [if_neg hkind]
    split
    next other hother => cases (hmiddle.takeKind?_eq_none hkind).symm.trans hother
    next => exact .pure ⟨rfl, hmiddle⟩

theorem walks_unary (h : row.At i cursor) (hdepth : 8 * cursor.left + 4 < depth) :
    Walks (row.Same cursor) (row.unary depth i) (Parser.unary .unlimited cursor) := by
  obtain ⟨less, rfl⟩ := Nat.exists_eq_add_one_of_ne_zero (Nat.ne_zero_of_lt hdepth)
  rw [Row.unary]
  by_cases hkind : (row.current i).kind = .minus ∨ (row.current i).kind = .plus
  · obtain ⟨next, htake⟩ := h.exists_take hlast (by rcases hkind with h | h <;> rw [h] <;> decide)
    obtain ⟨hadvance, hnext⟩ := h.step htake
    have hleft := Cursor.left_lt_of_take? htake
    rw [if_pos hkind, Parser.unary_of_sign htake hkind]
    refine (walks_checkSign h htake).bind ?_
    rintro _ _ -
    rw [hadvance, pure_bind, Parser.descend_unlimited, Parser.ok_bind]
    refine ((further _ _ hnext hleft).unary (by omega)).bind ?_
    rintro ⟨operand, j⟩ ⟨_, stop, hlt⟩ ⟨rfl, hstop⟩
    exact .pure ⟨rfl, hstop⟩
  · rw [if_neg hkind, Parser.unary_of_unsigned fun token next htake => ?_]
    · exact walks_power hlast values further h (by omega)
    · rwa [← Cursor.current_of_take? htake, ← h.current]

omit values in
theorem walks_productRest (h : row.At i cursor) (factors : List Expr)
    (hdepth : 8 * cursor.left + 5 < depth) :
    Walks (row.SameRest cursor) (row.productRest depth factors i)
      (Parser.productRest .unlimited factors cursor) := by
  obtain ⟨less, rfl⟩ := Nat.exists_eq_add_one_of_ne_zero (Nat.ne_zero_of_lt hdepth)
  rw [Row.productRest]
  by_cases hkind : (row.current i).kind = .multiply ∨ (row.current i).kind = .divide ∨
      (row.current i).kind = .modulo
  · obtain ⟨next, htake⟩ := h.exists_take hlast
      (by rcases hkind with h | h | h <;> rw [h] <;> decide)
    obtain ⟨hadvance, hnext⟩ := h.step htake
    have hleft := Cursor.left_lt_of_take? htake
    rw [if_pos hkind, hadvance, pure_bind, Parser.productRest_of_factor htake hkind]
    refine ((further _ _ hnext hleft).unary (by omega)).bind ?_
    rintro ⟨operand, j⟩ ⟨_, middle, hlt⟩ ⟨rfl, hmiddle⟩
    refine ((further j middle hmiddle (by omega)).productRest _ (by omega)).last ?_
    rintro ⟨e, j⟩ ⟨_, stop, hle⟩ ⟨rfl, hstop⟩
    exact .pure ⟨rfl, hstop⟩
  · rw [if_neg hkind, Parser.productRest_end fun token next htake => ?_]
    · exact .pure ⟨rfl, h⟩
    · rwa [← Cursor.current_of_take? htake, ← h.current]

theorem walks_product (h : row.At i cursor) (hdepth : 8 * cursor.left + 5 < depth) :
    Walks (row.Same cursor) (row.product depth i) (Parser.product .unlimited cursor) := by
  obtain ⟨less, rfl⟩ := Nat.exists_eq_add_one_of_ne_zero (Nat.ne_zero_of_lt hdepth)
  rw [Row.product, Parser.product]
  refine (walks_unary hlast values further h (by omega)).bind ?_
  rintro ⟨first, j⟩ ⟨_, middle, hlt⟩ ⟨rfl, hmiddle⟩
  refine ((further j middle hmiddle hlt).productRest _ (by omega)).last ?_
  rintro ⟨e, j⟩ ⟨_, stop, hle⟩ ⟨rfl, hstop⟩
  exact .pure ⟨rfl, hstop⟩

omit values in
theorem walks_sumRest (h : row.At i cursor) (operands : List Expr)
    (hdepth : 8 * cursor.left + 6 < depth) :
    Walks (row.SameRest cursor) (row.sumRest depth operands i)
      (Parser.sumRest .unlimited operands cursor) := by
  obtain ⟨less, rfl⟩ := Nat.exists_eq_add_one_of_ne_zero (Nat.ne_zero_of_lt hdepth)
  rw [Row.sumRest]
  by_cases hkind : (row.current i).kind = .plus ∨ (row.current i).kind = .minus
  · obtain ⟨next, htake⟩ := h.exists_take hlast (by rcases hkind with h | h <;> rw [h] <;> decide)
    obtain ⟨hadvance, hnext⟩ := h.step htake
    have hleft := Cursor.left_lt_of_take? htake
    rw [if_pos hkind, hadvance, pure_bind, Parser.sumRest_of_summand htake hkind]
    refine ((further _ _ hnext hleft).product (by omega)).bind ?_
    rintro ⟨operand, j⟩ ⟨_, middle, hlt⟩ ⟨rfl, hmiddle⟩
    refine ((further j middle hmiddle (by omega)).sumRest _ (by omega)).last ?_
    rintro ⟨e, j⟩ ⟨_, stop, hle⟩ ⟨rfl, hstop⟩
    exact .pure ⟨rfl, hstop⟩
  · rw [if_neg hkind, Parser.sumRest_end fun token next htake => ?_]
    · exact .pure ⟨rfl, h⟩
    · rwa [← Cursor.current_of_take? htake, ← h.current]

theorem walks_sum (h : row.At i cursor) (hdepth : 8 * cursor.left + 6 < depth) :
    Walks (row.Same cursor) (row.sum depth i) (Parser.sum .unlimited cursor) := by
  obtain ⟨less, rfl⟩ := Nat.exists_eq_add_one_of_ne_zero (Nat.ne_zero_of_lt hdepth)
  rw [Row.sum, Parser.sum]
  refine (walks_product hlast values further h (by omega)).bind ?_
  rintro ⟨first, j⟩ ⟨_, middle, hlt⟩ ⟨rfl, hmiddle⟩
  refine ((further j middle hmiddle hlt).sumRest _ (by omega)).last ?_
  rintro ⟨e, j⟩ ⟨_, stop, hle⟩ ⟨rfl, hstop⟩
  exact .pure ⟨rfl, hstop⟩

omit values in
theorem walks_argumentsRest (h : row.At i cursor) (hdepth : 8 * cursor.left + 7 < depth) :
    Walks (row.SameRest cursor) (row.argumentsRest depth i)
      (Parser.argumentsRest .unlimited cursor) := by
  obtain ⟨less, rfl⟩ := Nat.exists_eq_add_one_of_ne_zero (Nat.ne_zero_of_lt hdepth)
  rw [Row.argumentsRest, Parser.argumentsRest]
  by_cases hkind : (row.current i).kind = .comma
  · obtain ⟨next, htake⟩ := h.exists_take hlast (by rw [hkind]; decide)
    obtain ⟨hadvance, hnext⟩ := h.step htake
    have hcomma := Parser.takeKind?_of_take? htake hkind
    have hleft := Cursor.left_lt_of_take? htake
    rw [if_pos hkind, hadvance, pure_bind]
    dsimp only
    split
    next other hother =>
      cases hcomma.symm.trans hother
      refine ((further _ _ hnext hleft).sum (by omega)).bind ?_
      rintro ⟨first, j⟩ ⟨_, middle, hlt⟩ ⟨rfl, hmiddle⟩
      refine ((further j middle hmiddle (by omega)).argumentsRest (by omega)).bind ?_
      rintro ⟨others, j⟩ ⟨_, stop, hle⟩ ⟨rfl, hstop⟩
      exact .pure ⟨rfl, hstop⟩
    next hnone => cases hcomma.symm.trans hnone
  · rw [if_neg hkind]
    split
    next other hother => cases (h.takeKind?_eq_none hkind).symm.trans hother
    next => exact .pure ⟨rfl, h⟩

theorem walks_arguments (h : row.At i cursor) (hdepth : 8 * cursor.left + 7 < depth) :
    Walks (row.SameRest cursor) (row.arguments depth i)
      (Parser.arguments .unlimited cursor) := by
  obtain ⟨less, rfl⟩ := Nat.exists_eq_add_one_of_ne_zero (Nat.ne_zero_of_lt hdepth)
  rw [Row.arguments, Parser.arguments, h.current]
  split
  next => exact .pure ⟨rfl, h⟩
  next =>
    refine (walks_sum hlast values further h (by omega)).bind ?_
    rintro ⟨first, j⟩ ⟨_, middle, hlt⟩ ⟨rfl, hmiddle⟩
    refine ((further j middle hmiddle hlt).argumentsRest (by omega)).bind ?_
    rintro ⟨others, j⟩ ⟨_, stop, hle⟩ ⟨rfl, hstop⟩
    exact .pure ⟨rfl, hstop⟩

end Steps

theorem walksAt (hlast : row.last.kind = .eof)
    (values : Parser.HasValues ⟨none, row.tokens, row.last⟩) (i : Nat) (cursor : Cursor)
    (h : row.At i cursor) : row.WalksAt i cursor := by
  -- by induction on the tokens ahead
  have further : ∀ j rest, row.At j rest → rest.left < cursor.left → row.WalksAt j rest :=
    fun j rest hrest _ => walksAt hlast values j rest hrest
  exact {
    sum := walks_sum hlast values further h
    sumRest := walks_sumRest hlast further h
    product := walks_product hlast values further h
    productRest := walks_productRest hlast further h
    unary := walks_unary hlast values further h
    arguments := walks_arguments hlast values further h
    argumentsRest := walks_argumentsRest hlast further h }
termination_by cursor.left

variable (hlast : row.last.kind = .eof) (values : Parser.HasValues ⟨none, row.tokens, row.last⟩)
include hlast values

theorem walks_statement (h : row.At i cursor) (hdepth : 8 * cursor.left + 6 < depth) :
    Walks (row.Same cursor) (row.statement depth i) (Parser.statement .unlimited cursor) := by
  unfold Row.statement Parser.statement
  refine ((walksAt hlast values i cursor h).sum hdepth).bind ?_
  rintro ⟨e, j⟩ ⟨_, middle, hlt⟩ ⟨rfl, hmiddle⟩
  dsimp only at hmiddle ⊢
  by_cases hkind : (row.current j).kind = .assign
  · obtain ⟨next, htake⟩ := hmiddle.exists_take hlast (by rw [hkind]; decide)
    obtain ⟨hadvance, hnext⟩ := hmiddle.step htake
    have hleft := Cursor.left_lt_of_take? htake
    have hassign := Parser.takeKind?_of_take? htake hkind
    rw [if_pos hkind, hmiddle.current]
    by_cases hname : e.name?.isNone
    · simp only [if_pos hname]
      split
      next => exact ⟨rfl, by simp⟩
      next hnone => cases hassign.symm.trans hnone
    · simp only [if_neg hname]
      rw [hadvance, pure_bind]
      split
      next other hother =>
        cases hassign.symm.trans hother
        refine ((walksAt hlast values _ next hnext).sum (by omega)).bind ?_
        rintro ⟨value, j⟩ ⟨_, stop, hlt⟩ ⟨rfl, hstop⟩
        exact .pure ⟨rfl, hstop⟩
      next hnone => cases hassign.symm.trans hnone
  · rw [if_neg hkind]
    split
    next other hother => cases (hmiddle.takeKind?_eq_none hkind).symm.trans hother
    next => exact .pure ⟨rfl, hmiddle⟩

omit hlast values in
theorem walks_boundary (h : row.At i cursor) (force : Bool) :
    Walks Eq (row.boundary force i) (Parser.boundary force cursor) := by
  have hsame : Parser.boundary force ⟨cursor.previous, [], cursor.current⟩ =
      Parser.boundary force cursor := rfl
  rw [Row.boundary, h.view, pure_bind, hsame]
  exact .check fun error herror => Parser.fault_of_boundary herror

/-- The statements of a row are read up to its end, where the walk stands then. -/
theorem walks_statements (heof : ∀ token ∈ row.tokens, token.kind ≠ .eof) (h : row.At i cursor)
    (force separated : Bool) (hdepth : 8 * cursor.left + 7 < depth) :
    Walks (fun value es => value.1 = es ∧ value.2 = row.tokens.length)
      (row.statements force depth separated i)
      (Parser.statements .unlimited force separated cursor) := by
  fun_induction Parser.statements .unlimited force separated cursor generalizing depth i with
  | case1 separated cursor next hsemicolon _ ih =>
    obtain ⟨less, rfl⟩ := Nat.exists_eq_add_one_of_ne_zero (Nat.ne_zero_of_lt hdepth)
    obtain ⟨token, htake, hkind⟩ := Cursor.takeKind?_eq_some_iff.mp hsemicolon
    obtain ⟨hadvance, hnext⟩ := h.step htake
    rw [Row.statements, h.current, Cursor.current_of_take? htake, if_pos hkind, hadvance, pure_bind]
    have hleft := Cursor.left_lt_of_take? htake
    exact ih hnext (by omega)
  | case2 separated cursor hnone token =>
    obtain ⟨less, rfl⟩ := Nat.exists_eq_add_one_of_ne_zero (Nat.ne_zero_of_lt hdepth)
    rename_i hkind
    rw [Row.statements, if_neg (h.kind_ne hlast (by decide) hnone), h.current, if_pos hkind]
    exact .pure ⟨rfl, h.eq_length heof hkind⟩
  | case3 separated cursor hnone token =>
    obtain ⟨less, rfl⟩ := Nat.exists_eq_add_one_of_ne_zero (Nat.ne_zero_of_lt hdepth)
    rename_i hend hparen
    rw [Row.statements, if_neg (h.kind_ne hlast (by decide) hnone), h.current, if_neg hend,
      if_pos hparen]
    exact .refused (by simp)
  | case4 separated cursor hnone token =>
    obtain ⟨less, rfl⟩ := Nat.exists_eq_add_one_of_ne_zero (Nat.ne_zero_of_lt hdepth)
    rename_i hend hparen hseparated
    rw [Row.statements, if_neg (h.kind_ne hlast (by decide) hnone), h.current, if_neg hend,
      if_neg hparen, if_pos (by simpa using hseparated)]
    exact .refused (by simp)
  | case5 separated cursor hnone token hend hparen hseparated =>
    obtain ⟨less, rfl⟩ := Nat.exists_eq_add_one_of_ne_zero (Nat.ne_zero_of_lt hdepth)
    rename_i ih
    rw [Row.statements, if_neg (h.kind_ne hlast (by decide) hnone), h.current, if_neg hend,
      if_neg hparen, if_neg (by simpa using hseparated)]
    refine (walks_statement hlast values h (by omega)).bind ?_
    rintro ⟨first, j⟩ ⟨_, middle, hlt⟩ ⟨rfl, hmiddle⟩
    refine (walks_boundary hmiddle force).bind ?_
    rintro next _ rfl
    refine (ih middle hlt next hmiddle (by omega)).bind ?_
    rintro ⟨others, j⟩ _ ⟨rfl, hend⟩
    exact .pure ⟨rfl, hend⟩

theorem walks_program (heof : ∀ token ∈ row.tokens, token.kind ≠ .eof) (force : Bool)
    (hdepth : 8 * (row.tokens.length + 1) ≤ depth) :
    Walks (fun value e => value.1 = e ∧ value.2 = row.tokens.length) (row.program depth force)
      (Parser.program .unlimited force ⟨none, row.tokens, row.last⟩) := by
  unfold Row.program Parser.program
  have hleft : 8 * Cursor.left ⟨none, row.tokens, row.last⟩ + 7 < depth := hdepth
  refine (walks_statements hlast values heof row.at_zero force true hleft).bind ?_
  rintro ⟨es, j⟩ _ ⟨rfl, hend⟩
  match es with
  | [] =>
    have hcurrent : row.current j = row.last := by
      obtain rfl : j = row.tokens.length := hend
      simp [Row.current, all]
    dsimp only
    rw [hcurrent]
    exact .refused (by simp)
  | [only] => exact .pure ⟨rfl, hend⟩
  | first :: second :: rest => exact .pure ⟨rfl, hend⟩

end Row

/-- Every text is parsed to a tree or refused, with a complaint about a character that begins no
token or about a token, and not for its depth. The descent by index comes to the same: it ends, for
no more than eight calls nest for each token and for the end, it never takes the end of the input,
it reads nothing that the row does not have, and each numeral has a value for it. Where it finds a
tree it has taken all tokens. -/
theorem walk_eq_parse (text : String) (force : Bool) :
    (∃ c place, lex TokenRule.standard (some text) = .error ⟨.unexpected c text, place⟩ ∧
      parse .unlimited force (some text) = .error (.lexical ⟨.unexpected c text, place⟩)) ∨
    ∃ tokens, lex TokenRule.standard (some text) = .ok tokens ∧
      (∀ token ∈ tokens, token.kind ≠ .eof ∧ (token.kind = .number →
        ∃ x, Decimal.readNumeral false token.text.toList = some x)) ∧
      ((∃ tree, parse .unlimited force (some text) = .ok tree ∧
          ∀ depth, 8 * (tokens.length + 1) ≤ depth →
            ((Row.mk tokens (.atEnd text.toList)).program depth force).run =
              some (.ok (tree, tokens.length))) ∨
        ∃ error, parse .unlimited force (some text) = .error (.grammatical error) ∧
          error.fault ≠ .tooDeep ∧
          ∀ depth, 8 * (tokens.length + 1) ≤ depth →
            ((Row.mk tokens (.atEnd text.toList)).program depth force).run =
              some (.error (.refused error))) := by
  cases lexed : lex TokenRule.standard (some text) with
  | error error =>
    obtain ⟨c, place, rfl⟩ := TokenRule.exists_unexpected lexed
    exact .inl ⟨c, place, rfl, parse_of_lex_error lexed⟩
  | ok tokens =>
    have values : ∀ token ∈ tokens, token.kind = .number →
        ∃ x, Decimal.readNumeral false token.text.toList = some x :=
      fun _ => exists_value_of_lex lexed
    have heof : ∀ token ∈ tokens, token.kind ≠ .eof :=
      fun _ => TokenRule.kind_ne_eof_of_lex lexed
    have hwalks : ∀ depth, 8 * (tokens.length + 1) ≤ depth → Walks _ _ _ := fun depth =>
      @Row.walks_program ⟨tokens, .atEnd text.toList⟩ depth rfl values heof force
    refine .inr ⟨tokens, rfl, fun token member => ⟨heof token member, values token member⟩, ?_⟩
    rw [parse_of_lex lexed, Cursor.ofTokens]
    cases hprogram : Parser.program .unlimited force ⟨none, tokens, .atEnd text.toList⟩ with
    | error error =>
      rw [hprogram] at hwalks
      refine .inr ⟨error, rfl, (hwalks _ (Nat.le_refl _)).2, fun depth hdepth => ?_⟩
      rw [(hwalks depth hdepth).1]
      rfl
    | ok tree =>
      rw [hprogram] at hwalks
      refine .inl ⟨tree, rfl, fun depth hdepth => ?_⟩
      obtain ⟨⟨e, i⟩, hwalk, rfl, rfl⟩ := hwalks depth hdepth
      rw [hwalk]
      rfl

end Formula
