import Formula.Proofs.Parser.Phrase
import Formula.Proofs.Parser.Returns
import Formula.Proofs.Token.Lexer

namespace Formula

open Grammar

namespace Parser

variable {force separated : Bool} {start middle stop : Cursor} {e : Expr} {es : List Expr}
  {u v w : List Token}

/-- Where the input does not end, only a statement that touches nothing may go on without a
semicolon, and only where none is forced. -/
theorem boundary_eq_true_iff {cursor : Cursor} :
    boundary force cursor = .ok true ↔
      (cursor.current.kind = .semicolon ∨ cursor.current.kind = .eof ∨
        cursor.current.kind = .rparen) ∨
      cursor.current.kind.startsStatement = true ∧ force = false ∧
        ∀ previous, cursor.previous = some previous → ¬ Touches previous cursor.current := by
  unfold boundary
  dsimp only
  by_cases hend : cursor.current.kind = .semicolon ∨ cursor.current.kind = .eof ∨
    cursor.current.kind = .rparen
  · rw [if_pos (by simpa [or_assoc] using hend)]
    exact iff_of_true rfl (.inl hend)
  rw [if_neg (by simpa [or_assoc] using hend), or_iff_right hend]
  by_cases hstarts : cursor.current.kind.startsStatement = true
  swap
  · rw [if_pos (by simpa using hstarts)]
    exact iff_of_false (by intro h; cases h) fun h => hstarts h.1
  rw [if_neg (by simp [hstarts]), and_iff_right hstarts]
  cases force with
  | true => exact iff_of_false (by intro h; cases h) fun h => Bool.noConfusion h.1
  | false =>
    rw [if_neg (by decide), and_iff_right rfl]
    cases hprevious : cursor.previous with
    | none => exact iff_of_true rfl fun _ h => by cases h
    | some previous =>
      dsimp only
      by_cases htouches : Touches previous cursor.current
      · rw [if_pos (beq_iff_eq.mpr htouches.symm)]
        exact iff_of_false (by intro h; cases h) fun h => h previous rfl htouches
      · rw [if_neg (fun h => htouches (beq_iff_eq.mp h).symm)]
        exact iff_of_true rfl fun _ h => by cases h; exact htouches

/-- What is read last before a cursor is no operator. -/
theorem behindOperator_of_stops (hw : Spans start w stop)
    (hstops : ∃ token, w.getLast? = some token ∧ token.kind.isOperator = false) :
    stop.behindOperator = false := by
  obtain ⟨token, hlast, hkind⟩ := hstops
  rw [Cursor.behindOperator, hw.previous, hlast]
  exact hkind

theorem behindOperator_of_semicolons (hu : Semicolons u) (hw : Spans start u stop)
    (hbehind : start.behindOperator = false) : stop.behindOperator = false := by
  cases hlast : u.getLast? with
  | none =>
    cases List.getLast?_eq_none_iff.mp hlast
    rwa [hw.eq_of_nil]
  | some token =>
    have hkind := hu token (List.mem_of_getLast? hlast)
    exact behindOperator_of_stops hw ⟨token, hlast, by rw [hkind]; rfl⟩

theorem exists_statement_of_reads (h : ReadsStatement e start stop)
    (hbehind : start.behindOperator = false) :
    ∃ w, Spans start w stop ∧ Statement w e ∧ Ends sumMarks stop := by
  cases h with
  | plain hsum _ =>
    obtain ⟨w, hw, hderives⟩ := hsum.derived
    rw [hbehind] at hderives
    exact ⟨w, hw, .sum hderives, hsum.ending⟩
  | @assignment target value _ middle next _ htarget hassign hname hvalue =>
    obtain ⟨equals, htake, hkind⟩ := Cursor.takeKind?_eq_some_iff.mp hassign
    obtain ⟨w, hw, hfirst⟩ := htarget.derived
    obtain ⟨v, hv, hsecond⟩ := hvalue.derived
    rw [hbehind] at hfirst
    rw [Cursor.behindOperator_of_take? htake, hkind] at hsecond
    cases target with
    | «variable» name =>
      exact ⟨w ++ equals :: v, hw.append (.cons htake hv), .assignment hfirst hkind hsecond,
        hvalue.ending⟩
    | _ => cases hname

/-- A statement is read where neither an operator nor a value goes on with it. -/
theorem reads_of_statement (h : Statement w e) (hw : Spans start w stop)
    (hbehind : start.behindOperator = false) (hends : Ends sumMarks stop)
    (hassign : stop.takeKind? .assign = none) : ReadsStatement e start stop := by
  cases h with
  | sum hsum => exact .plain (isRead_of_derives hsum hw hbehind hends) hassign
  | assignment htarget hkind hvalue =>
    obtain ⟨middle, next, hfirst, htake, hsecond, hnext⟩ := hw.exists_around
    have hequals := takeKind?_of_take? htake hkind
    rw [hkind] at hnext
    exact .assignment
      (isRead_of_derives htarget hfirst hbehind (.of_takeKind? hequals (by decide) (by decide)))
      hequals rfl (isRead_of_derives hvalue hsecond hnext hends)

/-- What comes behind a statement leaves it as it is and makes room for another one. -/
structure Parts (force : Bool) (cursor : Cursor) : Prop where
  ends : Ends sumMarks cursor
  noValue : cursor.takeKind? .assign = none
  boundary : Parser.boundary force cursor = .ok true

theorem parts_of_semicolon (h : middle.takeKind? .semicolon = some stop) : Parts force middle := by
  obtain ⟨token, htake, hkind⟩ := Cursor.takeKind?_eq_some_iff.mp h
  refine ⟨.of_takeKind? h (by decide) (by decide), takeKind?_eq_none h (by decide),
    boundary_eq_true_iff.mpr (.inl (.inl ?_))⟩
  rw [Cursor.current_of_take? htake, hkind]

theorem takeKind?_eq_none_of_ahead {kind : TokenKind} (h : middle.ahead = []) :
    middle.takeKind? kind = none := by
  refine Cursor.takeKind?_eq_none_iff.mpr fun token next htake _ => ?_
  cases h.symm.trans (Cursor.take?_eq_some_iff.mp htake).1

theorem parts_of_end (h : middle.ahead = []) (hlast : middle.last.kind = .eof) :
    Parts force middle := by
  have hcurrent : middle.current.kind = .eof := by rw [Cursor.current, h, List.headD_nil, hlast]
  refine ⟨⟨fun token _ _ => ?_, fun token _ _ => takeKind?_eq_none_of_ahead h,
    fun token next htake => ?_⟩, takeKind?_eq_none_of_ahead h,
    boundary_eq_true_iff.mpr (.inl (.inr (.inl hcurrent)))⟩
  · rw [checkNumeral, hcurrent]
    rfl
  · cases h.symm.trans (Cursor.take?_eq_some_iff.mp htake).1

theorem parts_of_apart (h : Apart force w v) (hw : Spans start w middle)
    (hv : Spans middle v stop) : Parts force middle := by
  obtain ⟨rfl, before, next, hbefore, hnext, hkind, hgap, hcall⟩ := h
  obtain ⟨rest, rfl⟩ := List.head?_eq_some_iff.mp hnext
  obtain ⟨behind, htake, -⟩ := hv.exists_next
  have hcurrent := hv.current
  have hprevious : middle.previous = some before := by rw [hw.previous, hbefore]; rfl
  refine ⟨⟨fun token htoken _ => ?_, fun token htoken hidentifier => ?_,
    fun token next' htake' => ?_⟩, ?_, boundary_eq_true_iff.mpr (.inr ⟨?_, rfl, ?_⟩)⟩
  · cases hprevious.symm.trans htoken
    have hne : (next.position == before.stop) = false := by simpa [Touches] using hgap
    simp [checkNumeral, hcurrent, hne]
  · cases hprevious.symm.trans htoken
    refine Cursor.takeKind?_eq_none_iff.mpr fun other next' htake' hparen => ?_
    cases htake.symm.trans htake'
    exact hcall ⟨hidentifier, hparen⟩
  · cases htake.symm.trans htake'
    rcases hkind with hkind | hkind | hkind <;> rw [hkind] <;> decide
  · refine Cursor.takeKind?_eq_none_iff.mpr fun other next' htake' => ?_
    cases htake.symm.trans htake'
    rcases hkind with hkind | hkind | hkind <;> rw [hkind] <;> decide
  · rw [hcurrent]
    rcases hkind with hkind | hkind | hkind <;> rw [hkind] <;> rfl
  · intro previous hsome
    cases hprevious.symm.trans hsome
    rwa [hcurrent]

/-- What the parser allows between two statements is what sets them apart. -/
theorem apart_of_boundary (hfirst : Statement w e) (hw : Spans start w middle)
    (hends : Ends sumMarks middle) (hboundary : boundary force middle = .ok true)
    (hv : Spans middle v stop)
    (hstarts : ∃ token rest, v = token :: rest ∧ token.kind.startsStatement = true) :
    Apart force w v := by
  obtain ⟨before, hbefore, -⟩ := hfirst.stops
  obtain ⟨next, rest, rfl, hnext⟩ := hstarts
  obtain ⟨behind, htake, -⟩ := hv.exists_next
  have hcurrent := hv.current
  have hprevious : middle.previous = some before := by rw [hw.previous, hbefore]; rfl
  have hmarks := hends.next next behind htake
  have hkind : next.kind = .number ∨ next.kind = .identifier ∨ next.kind = .lparen := by
    revert hnext hmarks
    cases next.kind <;> simp [TokenKind.startsStatement, sumMarks]
  rw [boundary_eq_true_iff, hcurrent] at hboundary
  rcases hboundary with hend | ⟨-, hforce, hgap⟩
  · rcases hend with hend | hend | hend <;> rw [hend] at hnext <;> cases hnext
  · refine ⟨hforce, before, next, hbefore, rfl, hkind, hgap before hprevious, ?_⟩
    rintro ⟨hword, hparen⟩
    exact Cursor.takeKind?_eq_none_iff.mp (hends.word before hprevious hword) next behind htake
      hparen

/-- The tokens from where the parser stands up to the end are statements with semicolons around
them. -/
inductive Remainder (force : Bool) : Bool → List Expr → List Token → Prop where
  | none {separated : Bool} {u : List Token} : Semicolons u → Remainder force separated [] u
  | statements {separated : Bool} {u w v : List Token} {es : List Expr} :
    Semicolons u → Statements force w es → Semicolons v → (u = [] → separated = true) →
    Remainder force separated es (u ++ (w ++ v))

theorem Remainder.semicolon {token : Token} (hkind : token.kind = .semicolon)
    (h : Remainder force true es v) : Remainder force separated es (token :: v) := by
  cases h with
  | none hu => exact .none (List.forall_mem_cons.mpr ⟨hkind, hu⟩)
  | statements hu hw hv _ =>
    rw [← List.cons_append]
    exact .statements (List.forall_mem_cons.mpr ⟨hkind, hu⟩) hw hv (by simp)

/-- A statement in front of others, which are apart from it unless a semicolon comes first. -/
theorem Remainder.cons (hfirst : Statement w e) (hrest : Remainder force separated es v)
    (hgap : separated = true →
      (∃ token rest, v = token :: rest ∧ token.kind.startsStatement = true) → Apart force w v) :
    Remainder force true (e :: es) (w ++ v) := by
  have hnone : Semicolons [] := by simp [Semicolons]
  cases hrest with
  | none hu => exact .statements hnone (.one hfirst) hu fun _ => rfl
  | @statements u v z _ hu hv hz hseparated =>
    have hapart : u = [] → Apart force w v := by
      rintro rfl
      obtain ⟨token, rest, rfl, hkind⟩ := hv.starts
      exact (hgap (hseparated rfl) ⟨token, rest ++ z, rfl, hkind⟩).congr rfl rfl
    have hall : Remainder force true (e :: es) ([] ++ (w ++ (u ++ v) ++ z)) :=
      .statements hnone (.more hfirst hu hv hapart) hz fun _ => rfl
    simpa using hall

theorem remainder_of_reads (h : ReadsStatements force separated es start)
    (hbehind : start.behindOperator = false) (heof : ∀ token ∈ start.ahead, token.kind ≠ .eof) :
    Remainder force separated es start.ahead := by
  induction h with
  | semicolon hsemicolon _ ih =>
    obtain ⟨token, htake, hkind⟩ := Cursor.takeKind?_eq_some_iff.mp hsemicolon
    have hahead := (Cursor.take?_eq_some_iff.mp htake).1
    rw [hahead] at heof ⊢
    exact (ih (by rw [Cursor.behindOperator_of_take? htake, hkind]; rfl)
      fun token member => heof token (List.mem_cons_of_mem _ member)).semicolon hkind
  | @none separated start hnone hcurrent =>
    cases hahead : start.ahead with
    | nil => exact .none (by simp [Semicolons])
    | cons token rest =>
      rw [Cursor.current, hahead] at hcurrent
      exact absurd hcurrent (heof token (by rw [hahead]; exact List.mem_cons_self))
  | statement _ _ _ hfirst hboundary _ ih =>
    obtain ⟨w, hw, hstatement, hends⟩ := exists_statement_of_reads hfirst hbehind
    rw [hw.ahead] at heof ⊢
    have hrest := ih (behindOperator_of_stops hw hstatement.stops)
      fun token member => heof token (List.mem_append_right _ member)
    refine hrest.cons hstatement fun hseparated hstarts => ?_
    obtain ⟨stop, hstop, -⟩ := Spans.exists_stop (List.append_nil _).symm
    exact apart_of_boundary hstatement hw hends (hseparated ▸ hboundary) hstop hstarts

/-- Semicolons before a statement make room for it. -/
theorem reads_of_semicolons (hu : Semicolons u) (hw : Spans start u middle)
    (h : ReadsStatements force true es middle) : ReadsStatements force true es start := by
  induction u generalizing start with
  | nil => rwa [← hw.eq_of_nil]
  | cons token rest ih =>
    obtain ⟨next, htake, hrest⟩ := hw.exists_next
    have hkind := hu token List.mem_cons_self
    exact .semicolon (takeKind?_of_take? htake hkind)
      (ih (fun other member => hu other (List.mem_cons_of_mem _ member)) hrest)

theorem reads_end (hahead : stop.ahead = []) (hlast : stop.last.kind = .eof) :
    ReadsStatements force true [] stop :=
  .none (takeKind?_eq_none_of_ahead hahead)
    (by rw [Cursor.current, hahead, List.headD_nil, hlast])

/-- The first token of a statement is none of those that the parser looks for before one. -/
theorem starts_of_spans (hw : Spans start w middle)
    (hstarts : ∃ token rest, w = token :: rest ∧ token.kind.startsStatement = true) :
    start.takeKind? .semicolon = none ∧ start.current.kind ≠ .eof ∧
      start.current.kind ≠ .rparen := by
  obtain ⟨token, rest, rfl, hkind⟩ := hstarts
  obtain ⟨next, htake, -⟩ := hw.exists_next
  rw [hw.current]
  refine ⟨Cursor.takeKind?_eq_none_iff.mpr fun other next' htake' => ?_,
    TokenKind.ne_of_startsStatement hkind rfl, TokenKind.ne_of_startsStatement hkind rfl⟩
  cases htake.symm.trans htake'
  exact TokenKind.ne_of_startsStatement hkind rfl

/-- One statement is read, and what follows it after that. -/
theorem reads_statement_then (h : Statement w e) (hw : Spans start w middle)
    (hbehind : start.behindOperator = false) (hparts : Parts force middle)
    (hrest : ReadsStatements force true es middle) :
    ReadsStatements force true (e :: es) start := by
  obtain ⟨hsemicolon, heof, hparen⟩ := starts_of_spans hw h.starts
  exact .statement hsemicolon heof hparen
    (reads_of_statement h hw hbehind hparts.ends hparts.noValue) hparts.boundary hrest

/-- What comes behind the last statement. -/
theorem parts_of_semicolons (hu : Semicolons u) (hw : Spans middle u stop)
    (hnext : u = [] → Parts force middle) : Parts force middle := by
  cases u with
  | nil => exact hnext rfl
  | cons token rest =>
    obtain ⟨next, htake, -⟩ := hw.exists_next
    exact parts_of_semicolon (takeKind?_of_take? htake (hu token List.mem_cons_self))

theorem reads_of_statements (h : Statements force w es) (hv : Semicolons v)
    (hw : Spans start w middle) (hrest : Spans middle v stop)
    (hbehind : start.behindOperator = false) (hahead : stop.ahead = [])
    (hlast : stop.last.kind = .eof) : ReadsStatements force true es start := by
  induction h generalizing start with
  | one hstatement =>
    have hparts : Parts force middle := parts_of_semicolons hv hrest fun hnil => by
      subst hnil
      rw [← hrest.eq_of_nil]
      exact parts_of_end hahead hlast
    exact reads_statement_then hstatement hw hbehind hparts
      (reads_of_semicolons hv hrest (reads_end hahead hlast))
  | more hstatement hu _ hgap ih =>
    obtain ⟨first, hfirst, hothers⟩ := hw.exists_middle
    obtain ⟨second, hsemicolons, hlater⟩ := hothers.exists_middle
    have hparts : Parts force first := parts_of_semicolons hu hsemicolons fun hnil => by
      subst hnil
      rw [hsemicolons.eq_of_nil] at hlater
      exact parts_of_apart (hgap rfl) hfirst hlater
    have hsecond := behindOperator_of_semicolons hu hsemicolons
      (behindOperator_of_stops hfirst hstatement.stops)
    exact reads_statement_then hstatement hfirst hbehind hparts
      (reads_of_semicolons hu hsemicolons (ih hlater hsecond))

theorem grammatical_of_program {room : Room} {cursor : Cursor}
    (hbehind : cursor.behindOperator = false) (heof : ∀ token ∈ cursor.ahead, token.kind ≠ .eof)
    (h : program room force cursor = .ok e) : Grammar.Program force cursor.ahead e := by
  obtain ⟨es, hes, hprogram⟩ := readsStatements_of_program h
  have hremainder := remainder_of_reads hes hbehind heof
  generalize cursor.ahead = tokens at hremainder ⊢
  cases hremainder with
  | none _ => rcases hprogram with h | ⟨-, h⟩ <;> simp at h
  | statements hu hw hv _ =>
    rcases hprogram with rfl | ⟨rfl, htwo⟩
    · cases hw with
      | one hstatement => exact .statement hu hstatement hv
      | more _ _ hothers _ => cases hothers
    · exact .block hu hw htwo hv

/-- What is left in front of the end is read as the statements that it is. -/
theorem statements_of_remainder {cursor : Cursor} (hbehind : cursor.behindOperator = false)
    (hlast : cursor.last.kind = .eof) (h : Remainder force true es cursor.ahead) :
    statements .unlimited force true cursor = .ok es := by
  generalize htokens : cursor.ahead = tokens at h
  cases h with
  | none hu =>
    obtain ⟨stop, hstop, hend⟩ := Spans.exists_stop (v := []) (by rw [htokens, List.append_nil])
    exact (reads_of_semicolons hu hstop (reads_end hend (hstop.last ▸ hlast))).returns
  | statements hu hw hv _ =>
    obtain ⟨start, hstart, hrest⟩ := Spans.exists_stop htokens
    obtain ⟨middle, hmiddle, hbehindw⟩ := Spans.exists_stop hrest
    obtain ⟨stop, hstop, hend⟩ := Spans.exists_stop (v := []) (by rw [hbehindw, List.append_nil])
    have hreads := reads_of_statements hw hv hmiddle hstop
      (behindOperator_of_semicolons hu hstart hbehind) hend
      (by rw [hstop.last, hmiddle.last, hstart.last, hlast])
    exact (reads_of_semicolons hu hstart hreads).returns

theorem program_of_grammatical {cursor : Cursor} (hbehind : cursor.behindOperator = false)
    (hlast : cursor.last.kind = .eof) (h : Grammar.Program force cursor.ahead e) :
    program .unlimited force cursor = .ok e := by
  generalize htokens : cursor.ahead = tokens at h
  cases h with
  | statement hu hw hv =>
    have hremainder : Remainder force true [e] cursor.ahead :=
      htokens ▸ .statements hu (.one hw) hv fun _ => rfl
    rw [program, statements_of_remainder hbehind hlast hremainder]
    rfl
  | @block u w v es hu hw htwo hv =>
    have hremainder : Remainder force true es cursor.ahead :=
      htokens ▸ .statements hu hw hv fun _ => rfl
    rw [program, statements_of_remainder hbehind hlast hremainder]
    match es, htwo with
    | first :: second :: rest, _ => rfl

end Parser

section Lexed

variable {room : Room} {force : Bool} {text : String} {tokens : List Token} {tree : Expr}

/-- What is parsed is a program. -/
theorem program_of_parse (lexed : lex TokenRule.standard (some text) = .ok tokens)
    (parsed : parse room force (some text) = .ok tree) : Grammar.Program force tokens tree := by
  have heof : ∀ token ∈ tokens, token.kind ≠ .eof :=
    fun _ => TokenRule.kind_ne_eof_of_lex lexed
  exact Parser.grammatical_of_program rfl heof ((parse_eq_ok_iff_of_lex lexed).mp parsed)

/-- A program is parsed. -/
theorem parse_of_program (lexed : lex TokenRule.standard (some text) = .ok tokens)
    (h : Grammar.Program force tokens tree) : parse .unlimited force (some text) = .ok tree := by
  exact (parse_eq_ok_iff_of_lex lexed).mpr (Parser.program_of_grammatical rfl rfl h)

theorem exists_value_of_lex (lexed : lex TokenRule.standard (some text) = .ok tokens)
    {token : Token} (member : token ∈ tokens) (hkind : token.kind = .number) :
    ∃ x, Decimal.readNumeral false token.text.toList = some x :=
  Option.isSome_iff_exists.mp
    (readNumeral_of_matches (TokenRule.matches_numeral_of_lex lexed member hkind))

theorem exists_lex_of_parse (parsed : parse room force (some text) = .ok tree) :
    ∃ tokens, lex TokenRule.standard (some text) = .ok tokens := by
  cases lexed : lex TokenRule.standard (some text) with
  | error error =>
    rw [parse_of_lex_error lexed] at parsed
    cases parsed
  | ok tokens => exact ⟨tokens, rfl⟩

end Lexed

/-- A text is a program where its tokens are one, and what it means is the tree that the grammar
gives to them; other texts are no formulas. Every numeral has a value, so none of them is in the
way. -/
theorem parse_eq_ok_iff_program {text : String} {tokens : List Token}
    (lexed : lex TokenRule.standard (some text) = .ok tokens) (force : Bool) :
    (∀ tree, parse .unlimited force (some text) = .ok tree ↔ Grammar.Program force tokens tree) ∧
      (∀ room tree, parse room force (some text) = .ok tree → Grammar.Program force tokens tree) ∧
      (∀ tree other, Grammar.Program force tokens tree → Grammar.Program force tokens other →
        tree = other) ∧
      ((∀ tree, ¬ Grammar.Program force tokens tree) →
        ∃ error, parse .unlimited force (some text) = .error (.grammatical error)) ∧
      ∀ token ∈ tokens, token.kind = .number →
        ∃ x, Decimal.readNumeral false token.text.toList = some x := by
  have hcomplete : ∀ tree, Grammar.Program force tokens tree →
      parse .unlimited force (some text) = .ok tree := fun tree => parse_of_program lexed
  refine ⟨fun tree => ⟨program_of_parse lexed, hcomplete tree⟩,
    fun room tree => program_of_parse lexed, fun tree other htree hother => ?_, fun hnone => ?_,
    fun token => exists_value_of_lex lexed⟩
  · exact Except.ok.inj ((hcomplete tree htree).symm.trans (hcomplete other hother))
  · cases hprogram : Parser.program .unlimited force (.ofTokens text tokens) with
    | error error => exact ⟨error, (parse_eq_error_iff_of_lex lexed).mpr hprogram⟩
    | ok tree =>
      have hparsed := (parse_eq_ok_iff_of_lex lexed).mpr hprogram
      exact absurd (program_of_parse lexed hparsed) (hnone tree)

def juxtaposedSource : String := "rate = -2 ^ -x % 3;; max(rate, (y)) (1)"

theorem parse_eq_ok_iff_program_juxtaposed :
    ∃ tokens, lex TokenRule.standard (some juxtaposedSource) = .ok tokens ∧
      (∃ tree, parse .unlimited false (some juxtaposedSource) = .ok tree ∧
        Grammar.Program false tokens tree) ∧
      ∀ tree, ¬ Grammar.Program true tokens tree := by
  obtain ⟨tokens, lexed, -⟩ := @exists_ok_of_any _ _
    (lex TokenRule.standard (some juxtaposedSource)) (fun _ => true) (by decide +kernel)
  obtain ⟨tree, parsed, -⟩ := @exists_ok_of_any _ _
    (parse .unlimited false (some juxtaposedSource)) (fun _ => true) (by decide +kernel)
  have hforced : (parse .unlimited true (some juxtaposedSource)).toBool = false := by
    decide +kernel
  refine ⟨tokens, lexed, ⟨tree, parsed, ?_⟩, fun tree htree => ?_⟩
  · exact ((parse_eq_ok_iff_program lexed false).1 tree).mp parsed
  · rw [((parse_eq_ok_iff_program lexed true).1 tree).mpr htree] at hforced
    cases hforced

end Formula
