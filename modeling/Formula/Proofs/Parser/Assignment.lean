import Formula.Proofs.Parser.Assignable

namespace Formula

open Formula.Grammar

namespace Parser

variable {force : Bool} {start middle stop next : Cursor} {e : Expr} {es : List Expr}
  {u v w : List Token} {error : ParseError}

theorem statements_of_semicolons {room : Room} (hu : Semicolons u) (hw : Spans start u middle) :
    statements room force true start = statements room force true middle := by
  induction u generalizing start with
  | nil => rw [hw.eq_of_nil]
  | cons token rest ih =>
    obtain ⟨next, htake, hrest⟩ := hw.exists_next
    have hsemicolon := takeKind?_of_take? htake (hu token List.mem_cons_self)
    rw [statements_of_semicolon hsemicolon]
    exact ih (fun other member => hu other (List.mem_cons_of_mem _ member)) hrest

/-- What fails behind a statement fails behind all of them. -/
theorem statements_error_behind (h : Statement w e) (hw : Spans start w middle)
    (hbehind : start.behindOperator = false) (hparts : Parts force middle)
    (herror : statements .unlimited force true middle = .error error) :
    statements .unlimited force true start = .error error := by
  obtain ⟨hleft, heq⟩ := (reads_of_statement h hw hbehind hparts.ends hparts.noValue).returns
  obtain ⟨hsemicolon, heof, hparen⟩ := starts_of_spans hw h.starts
  rw [statements_of_statement hsemicolon heof hparen]
  simp only [heq, hparts.boundary, herror, ok_bind]
  rfl

theorem statements_error_of_statements (h : Statements force w es) (hw : Spans start w middle)
    (hbehind : start.behindOperator = false) (hparts : Parts force middle)
    (herror : statements .unlimited force true middle = .error error) :
    statements .unlimited force true start = .error error := by
  induction h generalizing start with
  | one hstatement => exact statements_error_behind hstatement hw hbehind hparts herror
  | more hstatement hu _ hgap ih =>
    obtain ⟨first, hfirst, hothers⟩ := hw.exists_middle
    obtain ⟨second, hsemicolons, hlater⟩ := hothers.exists_middle
    have hnext : Parts force first := parts_of_semicolons hu hsemicolons fun hnil => by
      subst hnil
      rw [hsemicolons.eq_of_nil] at hlater
      exact parts_of_apart (hgap rfl) hfirst hlater
    have hsecond := behindOperator_of_semicolons hu hsemicolons
      (behindOperator_of_stops hfirst hstatement.stops)
    refine statements_error_behind hstatement hfirst hbehind hnext ?_
    rw [statements_of_semicolons hu hsemicolons]
    exact ih hlater hsecond

/-- A sum that stands for no variable is read before an equals sign, and then refused. -/
theorem statement_notAssignable (h : Derives false w (.sum e)) (hw : Spans start w middle)
    (hbehind : start.behindOperator = false) (hassign : middle.takeKind? .assign = some next)
    (hname : e.name? = none) :
    statement .unlimited start = .error ⟨.notAssignable, middle.current⟩ := by
  have hreads : Reads (.sum e) start middle :=
    isRead_of_derives h hw hbehind (.of_takeKind? hassign (by decide) (by decide))
  obtain ⟨hleft, heq⟩ := hreads.returns
  rw [statement, heq, ok_bind]
  dsimp only
  split
  next =>
    rw [hname]
    rfl
  next hnone => cases hassign.symm.trans hnone

theorem statements_notAssignable {equals : Token} (h : Derives false w (.sum e))
    (hw : Spans start w middle) (hbehind : start.behindOperator = false)
    (htake : middle.take? = some (equals, next)) (hkind : equals.kind = .assign)
    (hname : e.name? = none) :
    statements .unlimited force true start = .error ⟨.notAssignable, equals⟩ := by
  obtain ⟨hsemicolon, heof, hparen⟩ := starts_of_spans hw h.starts
  have herror := statement_notAssignable h hw hbehind (takeKind?_of_take? htake hkind) hname
  rw [Cursor.current_of_take? htake] at herror
  rw [statements_of_statement hsemicolon heof hparen, herror]
  rfl

/-- What fails where a statement begins fails from the start. -/
theorem statements_error_of_begins {before : List Token} (hbegins : Begins force before w)
    (hbefore : Spans start before middle) (hw : Spans middle w stop)
    (hbehind : start.behindOperator = false)
    (herror : middle.behindOperator = false →
      statements .unlimited force true middle = .error error) :
    statements .unlimited force true start = .error error := by
  cases hbegins with
  | first hu =>
    rw [statements_of_semicolons hu hbefore]
    exact herror (behindOperator_of_semicolons hu hbefore hbehind)
  | later hu hs hv hgap =>
    obtain ⟨first, hfirst, hrest⟩ := hbefore.exists_middle
    obtain ⟨second, hsecond, hlast⟩ := hrest.exists_middle
    have hparts : Parts force second := parts_of_semicolons hv hlast fun hnil => by
      subst hnil
      rw [hlast.eq_of_nil] at hw
      exact parts_of_apart (hgap rfl) hsecond hw
    have hfree := behindOperator_of_semicolons hv hlast (behindOperator_of_stops hsecond hs.stops)
    rw [statements_of_semicolons hu hfirst]
    refine statements_error_of_statements hs hsecond
      (behindOperator_of_semicolons hu hfirst hbehind) hparts ?_
    rw [statements_of_semicolons hv hlast]
    exact herror hfree

/-- The parser fails at an equals sign behind a sum that stands for no variable. -/
theorem program_notAssignable {before : List Token} {equals : Token}
    (hbegins : Begins force before w) (h : Derives false w (.sum e)) (hname : e.name? = none)
    (hkind : equals.kind = .assign) (hahead : start.ahead = before ++ (w ++ equals :: v))
    (hbehind : start.behindOperator = false) :
    program .unlimited force start = .error ⟨.notAssignable, equals⟩ := by
  obtain ⟨first, hbefore, hfirst⟩ := Spans.exists_stop hahead
  obtain ⟨middle, hw, hmiddle⟩ := Spans.exists_stop hfirst
  obtain ⟨stop, hstop, -⟩ := Spans.exists_stop (w := [equals]) hmiddle
  rw [program, statements_error_of_begins hbegins hbefore hw hbehind fun hfree =>
    statements_notAssignable h hw hfree hstop.take?_of_single hkind hname]
  rfl

end Parser

/-- A text is accepted exactly where its tokens can be divided into statements with an equals sign
only behind a word in parentheses and plus signs; each assignment in its tree is one of these
statements. Otherwise the parser complains about a token: about the equals sign if it stands behind
any other sum. Without plus signs the target is a word in parentheses. -/
theorem assignable_of_parse {text : String} {tokens : List Token}
    (lexed : lex TokenRule.standard (some text) = .ok tokens) (force : Bool) :
    (∀ tree, parse .unlimited force (some text) = .ok tree ↔
      ∃ runs es, Divides force runs tokens ∧ List.Forall₂ Assigns runs es ∧ tree.Comprises es) ∧
    (∀ room tree, parse room force (some text) = .ok tree →
      ∃ runs es, Divides force runs tokens ∧ List.Forall₂ Assigns runs es ∧ tree.Comprises es ∧
        ∀ target value, .assignment target value ∈ tree.nodes →
          .assignment target value ∈ es) ∧
    (∀ room, (∀ runs es, Divides force runs tokens → ¬ List.Forall₂ Assigns runs es) →
      ∃ error, parse room force (some text) = .error (.grammatical error)) ∧
    (∀ before w equals v e, tokens = before ++ (w ++ equals :: v) → Begins force before w →
      Derives false w (.sum e) → (∀ name, e ≠ .variable name) → equals.kind = .assign →
      parse .unlimited force (some text) = .error (.grammatical ⟨.notAssignable, equals⟩)) ∧
    ∀ w name, Enclosed w name ↔
      Assignable false w name ∧ ∀ token ∈ w, token.kind ≠ .plus := by
  have hparse : ∀ room, parse room force (some text) =
      (Parser.program room force (.ofTokens text tokens)).mapError .grammatical :=
    fun room => parse_of_lex lexed
  have hdivides : ∀ room tree, parse room force (some text) = .ok tree →
      ∃ runs es, Divides force runs tokens ∧ List.Forall₂ Assigns runs es ∧
        tree.Comprises es :=
    fun room tree h => program_iff_divides.mp (program_of_parse lexed h)
  refine ⟨fun tree => ⟨hdivides _ tree,
      fun h => parse_of_program lexed (program_iff_divides.mpr h)⟩, fun room tree h => ?_,
    fun room hnone => ?_, fun before w equals v e htokens hbegins hderives hname hkind => ?_,
    fun w name => enclosed_iff⟩
  · obtain ⟨runs, es, hruns, hall, hcomprises⟩ := hdivides room tree h
    exact ⟨runs, es, hruns, hall, hcomprises, fun _ _ => mem_of_mem_nodes hcomprises hall⟩
  · cases hprogram : Parser.program room force (.ofTokens text tokens) with
    | error error => exact ⟨error, by rw [hparse, hprogram]; rfl⟩
    | ok tree =>
      obtain ⟨runs, es, hruns, hall, -⟩ := hdivides room tree (by rw [hparse, hprogram]; rfl)
      exact absurd hall (hnone runs es hruns)
  · have hnone : e.name? = none := by
      cases e with
      | «variable» name => exact absurd rfl (hname name)
      | _ => rfl
    rw [hparse, Parser.program_notAssignable hbegins hderives hnone hkind htokens rfl]
    rfl

def signedTargetSource : String := "+((rate)) = -2 % x; 3 max(rate, 1)"

theorem assignable_of_parse_signed :
    ∃ tokens tree runs es, lex TokenRule.standard (some signedTargetSource) = .ok tokens ∧
      parse .standard false (some signedTargetSource) = .ok tree ∧ Divides false runs tokens ∧
      List.Forall₂ Assigns runs es ∧ tree.Comprises es := by
  obtain ⟨tokens, lexed, -⟩ := @exists_ok_of_any _ _
    (lex TokenRule.standard (some signedTargetSource)) (fun _ => true) (by decide +kernel)
  obtain ⟨tree, parsed, -⟩ := @exists_ok_of_any _ _
    (parse .standard false (some signedTargetSource)) (fun _ => true) (by decide +kernel)
  obtain ⟨-, hsound, -⟩ := assignable_of_parse lexed false
  obtain ⟨runs, es, hruns, hall, hcomprises, -⟩ := hsound .standard tree parsed
  exact ⟨tokens, tree, runs, es, lexed, parsed, hruns, hall, hcomprises⟩

/-- A variable with a plus sign is assigned to, though it is no word in parentheses. -/
theorem plus_assignable :
    ∃ tokens target value, lex TokenRule.standard (some "+a = 3") = .ok tokens ∧
      parse .standard false (some "+a = 3") = .ok (.assignment target value) ∧
      ∀ w equals v, tokens = w ++ equals :: v → equals.kind = .assign →
        ∀ name, ¬ Enclosed w name := by
  obtain ⟨tokens, lexed, hplus⟩ := @exists_ok_of_any _ _
    (lex TokenRule.standard (some "+a = 3"))
    (fun tokens => tokens.head?.any fun token : Token => decide (token.kind = .plus))
    (by decide +kernel)
  obtain ⟨tree, parsed, hkind⟩ := @exists_ok_of_any _ _
    (parse .standard false (some "+a = 3")) (fun tree => decide (tree.kind = .assignment))
    (by decide +kernel)
  cases tree with
  | assignment target value =>
    refine ⟨tokens, target, value, lexed, parsed, ?_⟩
    rintro w equals v rfl - name henclosed
    cases w with
    | nil => cases henclosed
    | cons sign rest =>
      exact henclosed.kind_ne_plus sign List.mem_cons_self (of_decide_eq_true hplus)
  | _ => cases hkind

end Formula
