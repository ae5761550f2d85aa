import Formula.Proofs.Parser.Reads

namespace Formula.Parser

/-- The step that yields a reading returns it, and the cursor behind it, where it has room. -/
def Reading.Returns : Reading → Cursor → Cursor → Prop
  | .sum e, start, stop => ∃ h, Parser.sum .unlimited start = .ok ⟨e, stop, h⟩
  | .sumRest operands e, start, stop =>
    ∃ h, Parser.sumRest .unlimited operands start = .ok ⟨e, stop, h⟩
  | .product e, start, stop => ∃ h, Parser.product .unlimited start = .ok ⟨e, stop, h⟩
  | .productRest factors e, start, stop =>
    ∃ h, Parser.productRest .unlimited factors start = .ok ⟨e, stop, h⟩
  | .unary e, start, stop => ∃ h, Parser.unary .unlimited start = .ok ⟨e, stop, h⟩
  | .power e, start, stop => ∃ h, Parser.power .unlimited start = .ok ⟨e, stop, h⟩
  | .primary e, start, stop => ∃ h, Parser.primary .unlimited start = .ok ⟨e, stop, h⟩
  | .arguments es, start, stop => ∃ h, Parser.arguments .unlimited start = .ok ⟨es, stop, h⟩
  | .argumentsRest es, start, stop =>
    ∃ h, Parser.argumentsRest .unlimited start = .ok ⟨es, stop, h⟩

@[simp] theorem descend_unlimited (cost : Nat) (cursor : Cursor) :
    descend .unlimited cost cursor = .ok .unlimited := rfl

theorem ok_bind {ε α β : Type} (value : α) (next : α → Except ε β) :
    (Except.ok value >>= next) = next value := rfl

theorem close_of_takeKind? {cursor stop : Cursor} (h : cursor.takeKind? .rparen = some stop) :
    ∃ hleft, ∀ opening inCall, close opening inCall cursor = .ok ⟨stop, hleft⟩ := by
  have hleft := Cursor.left_takeKind? h
  refine ⟨by omega, fun opening inCall => ?_⟩
  unfold close
  split
  next rest hrest =>
    cases h.symm.trans hrest
    rfl
  next hnone => cases h.symm.trans hnone

namespace Reading.Returns

variable {first operand base exponent e : Expr} {operands factors es others : List Expr}
  {token : Token} {start middle next inside behind stop : Cursor}

protected theorem sum (hfirst : (Reading.product first).Returns start middle)
    (hrest : (Reading.sumRest [first] e).Returns middle stop) :
    (Reading.sum e).Returns start stop := by
  obtain ⟨hleft, heq⟩ := hfirst
  obtain ⟨hleftRest, heqRest⟩ := hrest
  refine ⟨by omega, ?_⟩
  rw [Parser.sum]
  simp only [heq, heqRest, ok_bind]
  rfl

theorem summand (htake : start.take? = some (token, next))
    (hkind : token.kind = .plus ∨ token.kind = .minus)
    (hoperand : (Reading.product operand).Returns next middle)
    (hrest : (Reading.sumRest (operands ++ [Parser.summand token.kind operand]) e).Returns
      middle stop) :
    (Reading.sumRest operands e).Returns start stop := by
  have hleft := Cursor.left_take? htake
  obtain ⟨hleftOperand, heq⟩ := hoperand
  obtain ⟨hleftRest, heqRest⟩ := hrest
  refine ⟨by omega, ?_⟩
  rw [Parser.sumRest]
  split
  next other rest htake' =>
    cases htake.symm.trans htake'
    rw [if_pos (by simpa using hkind)]
    simp only [heq, heqRest, ok_bind]
    rfl
  next hnone => cases htake.symm.trans hnone

theorem sumEnd (hend : ∀ token next, start.take? = some (token, next) →
    token.kind ≠ .plus ∧ token.kind ≠ .minus) :
    (Reading.sumRest operands (sumOf operands)).Returns start start := by
  refine ⟨Nat.le_refl _, ?_⟩
  rw [Parser.sumRest]
  split
  next token next htake =>
    rw [if_neg (by simpa using hend token next htake)]
    rfl
  next => rfl

protected theorem product (hfirst : (Reading.unary first).Returns start middle)
    (hrest : (Reading.productRest [first] e).Returns middle stop) :
    (Reading.product e).Returns start stop := by
  obtain ⟨hleft, heq⟩ := hfirst
  obtain ⟨hleftRest, heqRest⟩ := hrest
  refine ⟨by omega, ?_⟩
  rw [Parser.product]
  simp only [heq, heqRest, ok_bind]
  rfl

theorem factor (htake : start.take? = some (token, next))
    (hkind : token.kind = .multiply ∨ token.kind = .divide ∨ token.kind = .modulo)
    (hoperand : (Reading.unary operand).Returns next middle)
    (hrest : (Reading.productRest (withFactor factors token.kind operand) e).Returns middle stop) :
    (Reading.productRest factors e).Returns start stop := by
  have hleft := Cursor.left_take? htake
  obtain ⟨hleftOperand, heq⟩ := hoperand
  obtain ⟨hleftRest, heqRest⟩ := hrest
  refine ⟨by omega, ?_⟩
  rw [Parser.productRest]
  split
  next other rest htake' =>
    cases htake.symm.trans htake'
    rw [if_pos (by simpa [or_assoc] using hkind)]
    simp only [heq, heqRest, ok_bind]
    rfl
  next hnone => cases htake.symm.trans hnone

theorem productEnd (hend : ∀ token next, start.take? = some (token, next) →
    token.kind ≠ .multiply ∧ token.kind ≠ .divide ∧ token.kind ≠ .modulo) :
    (Reading.productRest factors (productOf factors)).Returns start start := by
  refine ⟨Nat.le_refl _, ?_⟩
  rw [Parser.productRest]
  split
  next token next htake =>
    rw [if_neg (by simpa [and_assoc] using hend token next htake)]
    rfl
  next => rfl

theorem sign (htake : start.take? = some (token, next))
    (hkind : token.kind = .minus ∨ token.kind = .plus) (hsign : checkSign token start = .ok ())
    (hoperand : (Reading.unary operand).Returns next stop) :
    (Reading.unary (Parser.summand token.kind operand)).Returns start stop := by
  have hleft := Cursor.left_take? htake
  obtain ⟨hleftOperand, heq⟩ := hoperand
  refine ⟨by omega, ?_⟩
  rw [Parser.unary]
  split
  next other rest htake' =>
    cases htake.symm.trans htake'
    rw [if_pos (by simpa using hkind), hsign]
    simp only [descend_unlimited, heq, ok_bind]
    rfl
  next hnone => cases htake.symm.trans hnone

theorem unsigned (hend : ∀ token next, start.take? = some (token, next) →
    token.kind ≠ .minus ∧ token.kind ≠ .plus) (hpower : (Reading.power e).Returns start stop) :
    (Reading.unary e).Returns start stop := by
  obtain ⟨hleft, heq⟩ := hpower
  refine ⟨hleft, ?_⟩
  rw [Parser.unary]
  split
  next token next htake => rw [if_neg (by simpa using hend token next htake), heq]
  next => exact heq

theorem raised (hbase : (Reading.primary base).Returns start middle)
    (hpower : middle.takeKind? .power = some next)
    (hexponent : (Reading.unary exponent).Returns next stop) :
    (Reading.power (.operation .power [base, exponent])).Returns start stop := by
  have hleft := Cursor.left_takeKind? hpower
  obtain ⟨hleftBase, heq⟩ := hbase
  obtain ⟨hleftExponent, heqExponent⟩ := hexponent
  refine ⟨by omega, ?_⟩
  rw [Parser.power]
  simp only [heq, ok_bind]
  split
  next rest hpower' =>
    cases hpower.symm.trans hpower'
    simp only [descend_unlimited, heqExponent, ok_bind]
    rfl
  next hnone => cases hpower.symm.trans hnone

theorem unraised (hprimary : (Reading.primary e).Returns start stop)
    (hnone : stop.takeKind? .power = none) : (Reading.power e).Returns start stop := by
  obtain ⟨hleft, heq⟩ := hprimary
  refine ⟨hleft, ?_⟩
  rw [Parser.power]
  simp only [heq, ok_bind]
  split
  next rest hpower => cases hnone.symm.trans hpower
  next => rfl

theorem number {x : Float} (htake : start.take? = some (token, stop))
    (hkind : token.kind = .number) (hnumeral : checkNumeral token stop.current = .ok ())
    (hx : Decimal.readNumeral false token.text.toList = some x) :
    (Reading.primary (.number (.float x))).Returns start stop := by
  have hleft := Cursor.left_take? htake
  refine ⟨by omega, ?_⟩
  rw [Parser.primary]
  split
  next other rest htake' =>
    cases htake.symm.trans htake'
    simp only [hkind, hnumeral, ok_bind, hx]
    rfl
  next hnone => cases htake.symm.trans hnone

theorem reference (htake : start.take? = some (token, stop)) (hkind : token.kind = .identifier)
    (hnone : stop.takeKind? .lparen = none) :
    (Reading.primary (.variable token.text)).Returns start stop := by
  have hleft := Cursor.left_take? htake
  refine ⟨by omega, ?_⟩
  rw [Parser.primary]
  split
  next other rest htake' =>
    cases htake.symm.trans htake'
    simp only [hkind]
    split
    next inside hinside => cases hnone.symm.trans hinside
    next => rfl
  next hnone => cases htake.symm.trans hnone

theorem call (htake : start.take? = some (token, next)) (hkind : token.kind = .identifier)
    (hinside : next.takeKind? .lparen = some inside)
    (harguments : (Reading.arguments es).Returns inside behind)
    (hclose : behind.takeKind? .rparen = some stop) :
    (Reading.primary (.call token.text es)).Returns start stop := by
  have hleft := Cursor.left_take? htake
  have hinner := Cursor.left_takeKind? hinside
  have houter := Cursor.left_takeKind? hclose
  obtain ⟨hleftArguments, heq⟩ := harguments
  refine ⟨by omega, ?_⟩
  rw [Parser.primary]
  split
  next other rest htake' =>
    cases htake.symm.trans htake'
    simp only [hkind]
    split
    next rest hinside' =>
      cases hinside.symm.trans hinside'
      obtain ⟨_, heqClose⟩ := close_of_takeKind? hclose
      simp only [descend_unlimited, heq, heqClose, ok_bind]
      rfl
    next hnone => cases hinside.symm.trans hnone
  next hnone => cases htake.symm.trans hnone

theorem parenthesis (htake : start.take? = some (token, inside)) (hkind : token.kind = .lparen)
    (hsum : (Reading.sum e).Returns inside behind)
    (hclose : behind.takeKind? .rparen = some stop) : (Reading.primary e).Returns start stop := by
  have hleft := Cursor.left_take? htake
  have houter := Cursor.left_takeKind? hclose
  obtain ⟨hleftSum, heq⟩ := hsum
  refine ⟨by omega, ?_⟩
  rw [Parser.primary]
  split
  next other rest htake' =>
    cases htake.symm.trans htake'
    obtain ⟨_, heqClose⟩ := close_of_takeKind? hclose
    simp only [hkind, descend_unlimited, heq, heqClose, ok_bind]
    rfl
  next hnone => cases htake.symm.trans hnone

theorem noArguments (hkind : start.current.kind = .rparen) :
    (Reading.arguments []).Returns start start := by
  refine ⟨Nat.le_refl _, ?_⟩
  rw [Parser.arguments, if_pos hkind]
  rfl

protected theorem arguments (hkind : start.current.kind ≠ .rparen)
    (hfirst : (Reading.sum first).Returns start middle)
    (hrest : (Reading.argumentsRest others).Returns middle stop) :
    (Reading.arguments (first :: others)).Returns start stop := by
  obtain ⟨hleft, heq⟩ := hfirst
  obtain ⟨hleftRest, heqRest⟩ := hrest
  refine ⟨by omega, ?_⟩
  rw [Parser.arguments, if_neg hkind]
  simp only [heq, heqRest, ok_bind]
  rfl

theorem argument (hcomma : start.takeKind? .comma = some next)
    (hfirst : (Reading.sum first).Returns next middle)
    (hrest : (Reading.argumentsRest others).Returns middle stop) :
    (Reading.argumentsRest (first :: others)).Returns start stop := by
  have hleft := Cursor.left_takeKind? hcomma
  obtain ⟨hleftFirst, heq⟩ := hfirst
  obtain ⟨hleftRest, heqRest⟩ := hrest
  refine ⟨by omega, ?_⟩
  rw [Parser.argumentsRest]
  split
  next rest hcomma' =>
    cases hcomma.symm.trans hcomma'
    simp only [heq, heqRest, ok_bind]
    rfl
  next hnone => cases hcomma.symm.trans hnone

theorem argumentsEnd (hnone : start.takeKind? .comma = none) :
    (Reading.argumentsRest []).Returns start start := by
  refine ⟨Nat.le_refl _, ?_⟩
  rw [Parser.argumentsRest]
  split
  next rest hcomma => cases hnone.symm.trans hcomma
  next => rfl

end Reading.Returns

/-- Whatever can be read is returned, since returning keeps to every rule of reading. -/
theorem Reads.returns {reading : Reading} {start stop : Cursor} (h : Reads reading start stop) :
    reading.Returns start stop := by
  induction h with
  | sum _ _ ihFirst ihRest => exact .sum ihFirst ihRest
  | summand htake hkind _ _ ihOperand ihRest => exact .summand htake hkind ihOperand ihRest
  | sumEnd hend => exact .sumEnd hend
  | product _ _ ihFirst ihRest => exact .product ihFirst ihRest
  | factor htake hkind _ _ ihOperand ihRest => exact .factor htake hkind ihOperand ihRest
  | productEnd hend => exact .productEnd hend
  | sign htake hkind hsign _ ih => exact .sign htake hkind hsign ih
  | unsigned hend _ ih => exact .unsigned hend ih
  | raised _ hpower _ ihBase ihExponent => exact .raised ihBase hpower ihExponent
  | unraised _ hnone ih => exact .unraised ih hnone
  | number htake hkind hnumeral hx => exact .number htake hkind hnumeral hx
  | reference htake hkind hnone => exact .reference htake hkind hnone
  | call htake hkind hinside _ hclose ih => exact .call htake hkind hinside ih hclose
  | parenthesis htake hkind _ hclose ih => exact .parenthesis htake hkind ih hclose
  | noArguments hkind => exact .noArguments hkind
  | arguments hkind _ _ ihFirst ihRest => exact .arguments hkind ihFirst ihRest
  | argument hcomma _ _ ihFirst ihRest => exact .argument hcomma ihFirst ihRest
  | argumentsEnd hnone => exact .argumentsEnd hnone

theorem ReadsStatement.returns {e : Expr} {start stop : Cursor} (h : ReadsStatement e start stop) :
    ∃ hleft, statement .unlimited start = .ok ⟨e, stop, hleft⟩ := by
  cases h with
  | plain hsum hnone =>
    obtain ⟨hleft, heq⟩ := hsum.returns
    refine ⟨hleft, ?_⟩
    rw [statement, heq, ok_bind]
    dsimp only
    split
    next behind hassign => cases hnone.symm.trans hassign
    next => rfl
  | assignment htarget hassign hname hvalue =>
    have hleft := Cursor.left_takeKind? hassign
    obtain ⟨hfirst, heq⟩ := htarget.returns
    obtain ⟨hsecond, heqValue⟩ := hvalue.returns
    refine ⟨by omega, ?_⟩
    rw [statement, heq, ok_bind]
    dsimp only
    split
    next behind hassign' =>
      cases hassign.symm.trans hassign'
      have hsome := Option.isNone_eq_false_iff.mpr hname
      simp only [hsome, heqValue, ok_bind]
      rfl
    next hnone => cases hassign.symm.trans hnone

theorem statements_of_semicolon {room : Room} {force separated : Bool} {start rest : Cursor}
    (h : start.takeKind? .semicolon = some rest) :
    statements room force separated start = statements room force true rest := by
  rw [statements]
  split
  next other hother =>
    cases h.symm.trans hother
    rfl
  next hnone => cases h.symm.trans hnone

theorem statements_of_eof {room : Room} {force separated : Bool} {start : Cursor}
    (hnone : start.takeKind? .semicolon = none) (heof : start.current.kind = .eof) :
    statements room force separated start = .ok [] := by
  rw [statements]
  split
  next other hother => cases hnone.symm.trans hother
  next =>
    rw [if_pos heof]
    rfl

theorem statements_of_statement {room : Room} {force : Bool} {start : Cursor}
    (hnone : start.takeKind? .semicolon = none) (heof : start.current.kind ≠ .eof)
    (hparen : start.current.kind ≠ .rparen) :
    statements room force true start = (do
      let first ← statement room start
      let next ← boundary force first.rest
      let others ← statements room force next first.rest
      return first.tree :: others) := by
  rw [statements]
  split
  next other hother => cases hnone.symm.trans hother
  next =>
    dsimp only
    rw [if_neg heof, if_neg hparen]
    rfl

theorem ReadsStatements.returns {force separated : Bool} {es : List Expr} {start : Cursor}
    (h : ReadsStatements force separated es start) :
    statements .unlimited force separated start = .ok es := by
  induction h with
  | semicolon hsemicolon _ ih =>
    rw [statements_of_semicolon hsemicolon]
    exact ih
  | none hnone heof => exact statements_of_eof hnone heof
  | statement hnone heof hparen hfirst hboundary _ ih =>
    obtain ⟨hleft, heq⟩ := hfirst.returns
    rw [statements_of_statement hnone heof hparen]
    simp only [heq, hboundary, ih, ok_bind]
    rfl

end Formula.Parser

namespace Formula

variable {room : Room} {force : Bool} {text : String} {tokens : List Token}

theorem parse_of_lex_error {error : LexError}
    (lexed : lex TokenRule.standard (some text) = .error error) :
    parse room force (some text) = .error (.lexical error) := by
  rw [parse, lexed]
  rfl

theorem parse_of_lex (lexed : lex TokenRule.standard (some text) = .ok tokens) :
    parse room force (some text) =
      (Parser.program room force (.ofTokens text tokens)).mapError .grammatical := by
  rw [parse, lexed]
  rfl

theorem parse_eq_ok_iff_of_lex (lexed : lex TokenRule.standard (some text) = .ok tokens)
    {tree : Expr} :
    parse room force (some text) = .ok tree ↔
      Parser.program room force (.ofTokens text tokens) = .ok tree := by
  rw [parse_of_lex lexed]
  cases Parser.program room force (.ofTokens text tokens) with
  | error error => exact ⟨nofun, nofun⟩
  | ok tree =>
    constructor
    · rintro ⟨⟩
      rfl
    · rintro ⟨⟩
      rfl

theorem parse_eq_error_iff_of_lex (lexed : lex TokenRule.standard (some text) = .ok tokens)
    {error : ParseError} :
    parse room force (some text) = .error (.grammatical error) ↔
      Parser.program room force (.ofTokens text tokens) = .error error := by
  rw [parse_of_lex lexed]
  cases Parser.program room force (.ofTokens text tokens) with
  | error cause =>
    constructor
    · rintro ⟨⟩
      rfl
    · rintro ⟨⟩
      rfl
  | ok tree => exact ⟨nofun, nofun⟩

end Formula
