import Formula.Proofs.Parser.Statements

namespace Formula

open Grammar

variable {room : Room} {separated : Bool} {cursor start middle : Cursor} {e : Expr}
  {es : List Expr} {error : ParseError} {token : Token} {tokens u w : List Token}

/-- Whether a row of tokens is a program up to a statement that no semicolon separates from the one
before it. That statement begins at the given token and goes on, with those behind it, to the end
of the row. -/
def Lapses (tokens : List Token) (es : List Expr) (token : Token) : Prop :=
  ∃ u w v x first later, tokens = u ++ (w ++ (v ++ x)) ∧ es = first ++ later ∧
    Semicolons u ∧ Statements true w first ∧ Statements false v later ∧ Semicolons x ∧
      v.head? = some token

theorem Lapses.semicolon {semicolon : Token} (hkind : semicolon.kind = .semicolon)
    (h : Lapses tokens es token) : Lapses (semicolon :: tokens) es token := by
  obtain ⟨u, w, v, x, first, later, rfl, hes, hu, hrest⟩ := h
  exact ⟨semicolon :: u, w, v, x, first, later, rfl, hes, List.forall_mem_cons.mpr ⟨hkind, hu⟩,
    hrest⟩

/-- A statement in front of others, with a semicolon between. -/
theorem Lapses.cons (hw : Statement w e) (h : Lapses tokens es token)
    (hnext : ∀ token, tokens.head? = some token → token.kind.startsStatement = false) :
    Lapses (w ++ tokens) (e :: es) token := by
  obtain ⟨u, v, v', x, first, later, rfl, rfl, hu, hv, hlater, hx, htoken⟩ := h
  have hsome : u ≠ [] := by
    rintro rfl
    obtain ⟨head, rest, rfl, hkind⟩ := hv.starts
    exact absurd rfl (TokenKind.ne_of_startsStatement hkind (hnext head rfl))
  refine ⟨[], w ++ (u ++ v), v', x, e :: first, later, by simp, rfl, by simp [Semicolons],
    .more hw hu hv fun hnil => absurd hnil hsome, hlater, hx, htoken⟩

namespace Parser

/-- No statement begins where it is not separated from the one before. -/
theorem statements_unseparated {force : Bool} (h : cursor.current.kind.startsStatement = true) :
    statements room force false cursor = .error ⟨.notSeparated, cursor.current⟩ := by
  have hnone : cursor.takeKind? .semicolon = none := by
    refine Cursor.takeKind?_eq_none_iff.mpr fun token next htake => ?_
    rw [← Cursor.current_of_take? htake]
    exact TokenKind.ne_of_startsStatement h rfl
  rw [statements]
  split
  next rest hrest => cases hnone.symm.trans hrest
  next =>
    dsimp only
    rw [if_neg (TokenKind.ne_of_startsStatement h rfl),
      if_neg (TokenKind.ne_of_startsStatement h rfl)]
    rfl

/-- The complaint about a missing semicolon is left to the next step. -/
theorem boundary_eq_false_iff {force : Bool} :
    boundary force cursor = .ok false ↔
      force = true ∧ cursor.current.kind.startsStatement = true := by
  unfold boundary
  dsimp only
  by_cases hstarts : cursor.current.kind.startsStatement = true
  · have hsemicolon : cursor.current.kind ≠ .semicolon :=
      TokenKind.ne_of_startsStatement hstarts rfl
    have heof : cursor.current.kind ≠ .eof := TokenKind.ne_of_startsStatement hstarts rfl
    have hparen : cursor.current.kind ≠ .rparen := TokenKind.ne_of_startsStatement hstarts rfl
    rw [if_neg (by simp [hsemicolon, heof, hparen]), if_neg (by simp [hstarts])]
    cases force with
    | true => exact iff_of_true rfl ⟨rfl, hstarts⟩
    | false =>
      rw [if_neg (by decide)]
      refine iff_of_false ?_ (fun h => Bool.noConfusion h.1)
      cases cursor.previous with
      | none => exact fun h => by cases h
      | some previous =>
        dsimp only
        split <;> (intro h; cases h)
  · refine iff_of_false ?_ (fun h => hstarts h.2)
    split
    next => exact fun h => by cases h
    next =>
      rw [if_pos (by simpa using hstarts)]
      exact fun h => by cases h

/-- Where statements need no semicolon, the forced ones change nothing at the end of a statement or
are missing. -/
theorem boundary_forced {next : Bool} (h : boundary false cursor = .ok next) :
    next = true ∧
      (boundary true cursor = .ok true ∧ cursor.current.kind.startsStatement = false ∨
        boundary true cursor = .ok false ∧ cursor.current.kind.startsStatement = true) := by
  cases next with
  | false => cases (boundary_eq_false_iff.mp h).1
  | true =>
    refine ⟨rfl, ?_⟩
    rcases boundary_eq_true_iff.mp h with hend | ⟨hstarts, -, -⟩
    · refine .inl ⟨boundary_eq_true_iff.mpr (.inl hend), ?_⟩
      rcases hend with hkind | hkind | hkind <;> rw [hkind] <;> rfl
    · exact .inr ⟨boundary_eq_false_iff.mpr ⟨rfl, hstarts⟩, hstarts⟩

/-- What is read with forced semicolons is read without them. -/
theorem statements_of_forced (h : statements room true separated start = .ok es) :
    statements room false separated start = .ok es := by
  fun_induction statements room true separated start generalizing es with
  | case1 separated start rest hsemicolon _ ih =>
    rw [statements_of_semicolon hsemicolon]
    exact ih h
  | case2 separated start hnone token =>
    rename_i heof
    rw [statements_of_eof hnone heof]
    exact h
  | case3 => cases h
  | case4 => cases h
  | case5 separated start hnone token heof hparen hseparated =>
    rename_i ih
    obtain ⟨first, hfirst, h⟩ := exists_of_bind_eq_ok h
    obtain ⟨next, hnext, h⟩ := exists_of_bind_eq_ok h
    obtain ⟨others, hothers, h⟩ := exists_of_bind_eq_ok h
    cases h
    have hboundary : next = true ∧ boundary false first.rest = .ok true := by
      cases next with
      | false =>
        have hstarts := (boundary_eq_false_iff.mp hnext).2
        cases (statements_unseparated hstarts).symm.trans hothers
      | true =>
        rcases boundary_eq_true_iff.mp hnext with hend | ⟨-, hforce, -⟩
        · exact ⟨rfl, boundary_eq_true_iff.mpr (.inl hend)⟩
        · cases hforce
    obtain ⟨rfl, hboundary⟩ := hboundary
    have hlater := ih first.rest first.further true hothers
    obtain rfl : separated = true := by simpa using hseparated
    rw [statements_of_statement hnone heof hparen]
    simp only [hfirst, hboundary, hlater, ok_bind]
    rfl

/-- Statements that begin without a semicolon lapse behind a statement. -/
theorem lapses_of_remainder (hw : Statement w e) (hrest : Remainder false true es cursor.ahead)
    (hstarts : cursor.current.kind.startsStatement = true) (hlast : cursor.last.kind = .eof) :
    Lapses (w ++ cursor.ahead) (e :: es) cursor.current := by
  have hcurrent : cursor.current = cursor.ahead.headD cursor.last := rfl
  generalize cursor.ahead = tokens at hrest hcurrent ⊢
  have hno : ∀ u v, tokens = u ++ v → Semicolons u → u = [] := by
    rintro u v rfl hu
    cases u with
    | nil => rfl
    | cons semicolon rest =>
      rw [hcurrent, List.cons_append, List.headD_cons, hu semicolon List.mem_cons_self] at hstarts
      cases hstarts
  cases hrest with
  | none hu =>
    cases hno tokens [] (List.append_nil _).symm hu
    rw [hcurrent, List.headD_nil, hlast] at hstarts
    cases hstarts
  | @statements u v x _ hu hv hx _ =>
    cases hno u (v ++ x) rfl hu
    obtain ⟨head, rest, rfl, -⟩ := hv.starts
    exact ⟨[], w, head :: rest, x, [e], es, rfl, rfl, by simp [Semicolons], .one hw, hv, hx,
      by rw [hcurrent]; rfl⟩

/-- Where forced semicolons turn statements down, one of them is missing. -/
theorem lapses_of_statements (h : statements room false separated start = .ok es)
    (hforced : statements room true separated start = .error error)
    (hbehind : start.behindOperator = false) (heof : ∀ token ∈ start.ahead, token.kind ≠ .eof)
    (hlast : start.last.kind = .eof) :
    ∃ token, error = ⟨.notSeparated, token⟩ ∧ Lapses start.ahead es token := by
  fun_induction statements room false separated start generalizing es with
  | case1 separated start rest hsemicolon _ ih =>
    obtain ⟨semicolon, htake, hkind⟩ := Cursor.takeKind?_eq_some_iff.mp hsemicolon
    have hahead := (Cursor.take?_eq_some_iff.mp htake).1
    rw [hahead] at heof ⊢
    have hrest : rest.behindOperator = false := by
      rw [Cursor.behindOperator_of_take? htake, hkind]
      rfl
    rw [statements_of_semicolon hsemicolon] at hforced
    obtain ⟨token, herror, hlapses⟩ := ih h hforced hrest
      (fun token member => heof token (List.mem_cons_of_mem _ member))
      ((Cursor.take?_eq_some_iff.mp htake).2.2 ▸ hlast)
    exact ⟨token, herror, hlapses.semicolon hkind⟩
  | case2 separated start hnone token =>
    rename_i hend
    rw [statements_of_eof hnone hend] at hforced
    cases hforced
  | case3 => cases h
  | case4 => cases h
  | case5 separated start hnone token hend hparen hseparated =>
    rename_i ih
    obtain ⟨first, hfirst, h⟩ := exists_of_bind_eq_ok h
    obtain ⟨next, hnext, h⟩ := exists_of_bind_eq_ok h
    obtain ⟨others, hothers, h⟩ := exists_of_bind_eq_ok h
    cases h
    obtain ⟨w, hw, hstatement, -⟩ :=
      exists_statement_of_reads (readsStatement_of_statement hfirst) hbehind
    have hafter := behindOperator_of_stops hw hstatement.stops
    rw [hw.ahead] at heof ⊢
    have hlastAfter : first.rest.last.kind = .eof := hw.last ▸ hlast
    have heofs : ∀ token ∈ first.rest.ahead, token.kind ≠ .eof :=
      fun token member => heof token (List.mem_append_right _ member)
    obtain rfl : separated = true := by simpa using hseparated
    rw [statements_of_statement hnone hend hparen] at hforced
    simp only [hfirst, ok_bind] at hforced
    obtain ⟨rfl, ⟨hboundary, hstops⟩ | ⟨hboundary, hstarts⟩⟩ := boundary_forced hnext
    · rw [hboundary, ok_bind] at hforced
      rcases exists_of_bind_eq_error hforced with hforced | ⟨_, -, hnothing⟩
      · obtain ⟨token, herror, hlapses⟩ :=
          ih first.rest first.further true hothers hforced hafter heofs hlastAfter
        refine ⟨token, herror, hlapses.cons hstatement fun head hhead => ?_⟩
        have hcurrent : first.rest.current = head := by
          rw [Cursor.current, List.headD_eq_head?_getD, hhead]
          rfl
        rw [← hcurrent]
        exact hstops
      · cases hnothing
    · rw [hboundary, ok_bind, statements_unseparated hstarts] at hforced
      cases hforced
      have hremainder := remainder_of_reads (readsStatements_of_statements hothers) hafter heofs
      exact ⟨_, rfl, lapses_of_remainder hstatement hremainder hstarts hlastAfter⟩

end Parser

/-- Forced semicolons only take formulas away. What is parsed with them is parsed to the same tree
without them; and where they alone are in the way, the complaint is that a semicolon is missing, at
the first token of the first statement that none separates from the one before it. -/
theorem parse_forced (room : Room) (source : Option String) :
    (∀ e, parse room true source = .ok e → parse room false source = .ok e) ∧
      ∀ e error, parse room false source = .ok e → parse room true source = .error error →
        ∃ text tokens token, source = some text ∧
          lex TokenRule.standard (some text) = .ok tokens ∧ Lapses tokens e.statements token ∧
          error = .grammatical ⟨.notSeparated, token⟩ ∧
          error.message = s!"Expected ';' between statements at position {token.position}" := by
  cases source with
  | none => exact ⟨nofun, nofun⟩
  | some text =>
    constructor
    · intro e parsed
      obtain ⟨tokens, lexed⟩ := exists_lex_of_parse parsed
      rw [parse_eq_ok_iff_of_lex lexed, Parser.program_eq_ok_iff] at parsed ⊢
      obtain ⟨es, hes, hcomprises⟩ := parsed
      exact ⟨es, Parser.statements_of_forced hes, hcomprises⟩
    · intro e error parsed hforced
      obtain ⟨tokens, lexed⟩ := exists_lex_of_parse parsed
      obtain ⟨hes, hcomprises⟩ := comprises_statements_of_parse lexed parsed
      have herror : ∃ cause, error = .grammatical cause ∧
          Parser.statements room true true (.ofTokens text tokens) = .error cause := by
        cases hstatements : Parser.statements room true true (.ofTokens text tokens) with
        | ok others =>
          have hsame := Parser.statements_of_forced hstatements
          cases hes.symm.trans hsame
          have hprogram := Parser.program_eq_ok_iff.mpr ⟨_, hstatements, hcomprises⟩
          cases hforced.symm.trans ((parse_eq_ok_iff_of_lex lexed).mpr hprogram)
        | error cause =>
          have hprogram : Parser.program room true (.ofTokens text tokens) = .error cause := by
            rw [Parser.program, hstatements]
            rfl
          cases hforced.symm.trans ((parse_eq_error_iff_of_lex lexed).mpr hprogram)
          exact ⟨cause, rfl, rfl⟩
      obtain ⟨cause, rfl, hcause⟩ := herror
      obtain ⟨token, rfl, hlapses⟩ := Parser.lapses_of_statements hes hcause rfl
        (fun _ => TokenRule.kind_ne_eof_of_lex lexed) rfl
      exact ⟨text, tokens, token, rfl, lexed, hlapses, rfl, rfl⟩

/-- Several statements without semicolons behind two with one. -/
def hastySource : String := ";rate = 2; x = -rate y = (x) (y) ^ 2;"

theorem parse_forced_hasty :
    ∃ e error text tokens token, parse .standard false (some hastySource) = .ok e ∧
      parse .standard true (some hastySource) = .error error ∧ some hastySource = some text ∧
      lex TokenRule.standard (some text) = .ok tokens ∧ Lapses tokens e.statements token ∧
      error = .grammatical ⟨.notSeparated, token⟩ ∧
      error.message = "Expected ';' between statements at position 21" := by
  obtain ⟨e, parsed, -⟩ := @exists_ok_of_any _ _ (parse .standard false (some hastySource))
    (fun _ => true) (by decide +kernel)
  have hfails : (match parse .standard true (some hastySource) with
      | .ok _ => false
      | .error error => error.message == "Expected ';' between statements at position 21") = true :=
    by decide +kernel
  cases hforced : parse .standard true (some hastySource) with
  | ok other =>
    rw [hforced] at hfails
    cases hfails
  | error error =>
    obtain ⟨text, tokens, token, htext, lexed, hlapses, herror, -⟩ :=
      (parse_forced .standard (some hastySource)).2 e error parsed hforced
    rw [hforced] at hfails
    exact ⟨e, error, text, tokens, token, parsed, rfl, htext, lexed, hlapses, herror,
      eq_of_beq hfails⟩

end Formula
