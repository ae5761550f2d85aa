import Formula.Proofs.Parser.Chain
import Formula.Proofs.Parser.Sequence
import Formula.Proofs.Parser.Spacing
import Formula.Proofs.Parser.Statements
import Formula.Proofs.Token.Cut

namespace Formula

open Grammar
open Formula.Parser (Remainder)
open TokenRule (standard tokensFrom)

section Shifted

variable {force : Bool} {n n' : Nat} {u v w : List Token} {e : Expr} {es : List Expr}

theorem Grammar.Semicolons.shifted (h : Semicolons u) (hu : List.Forall₂ (Token.Shifted n n') u v) :
    Semicolons v := by
  induction hu with
  | nil => exact h
  | cons hfirst _ ih =>
    obtain ⟨hkind, hrest⟩ := List.forall_mem_cons.mp h
    exact List.forall_mem_cons.mpr ⟨hfirst.kind ▸ hkind, ih hrest⟩

theorem Grammar.Statement.shifted (h : Statement w e) (hw : List.Forall₂ (Token.Shifted n n') w v) :
    Statement v e := by
  cases h with
  | sum hsum => exact .sum (hsum.shifted hw)
  | assignment htarget hkind hvalue =>
    obtain ⟨_, _, _, rfl, hfirst, hsame, hlast⟩ := exists_shifted_around hw
    exact .assignment (htarget.shifted hfirst) (hsame ▸ hkind) (hvalue.shifted hlast)

theorem exists_shifted_getLast? {token : Token} (h : List.Forall₂ (Token.Shifted n n') w v)
    (htoken : w.getLast? = some token) :
    ∃ token', v.getLast? = some token' ∧ token.Shifted n n' token' := by
  rw [← List.head?_reverse] at htoken ⊢
  exact exists_shifted_head? (List.forall₂_reverse_iff.mpr h) htoken

theorem Grammar.Apart.shifted {w' v' : List Token} (h : Apart force w v)
    (hw : List.Forall₂ (Token.Shifted n n') w w') (hv : List.Forall₂ (Token.Shifted n n') v v') :
    Apart force w' v' := by
  obtain ⟨hforce, before, next, hbefore, hnext, hkind, hgap, hcall⟩ := h
  obtain ⟨before', hbefore', hlast⟩ := exists_shifted_getLast? hw hbefore
  obtain ⟨next', hnext', hhead⟩ := exists_shifted_head? hv hnext
  rw [hlast.touches_iff hhead] at hgap
  rw [hhead.kind] at hkind hcall
  rw [hlast.kind] at hcall
  exact ⟨hforce, before', next', hbefore', hnext', hkind, hgap, hcall⟩

theorem Grammar.Statements.shifted (h : Statements force w es)
    (hw : List.Forall₂ (Token.Shifted n n') w v) : Statements force v es := by
  induction h generalizing v with
  | one hstatement => exact .one (Statement.shifted hstatement hw)
  | more hstatement hu _ hgap ih =>
    obtain ⟨w', rest, rfl, hfirst, hothers⟩ := exists_shifted_append hw
    obtain ⟨u', v', rfl, hsemicolons, hlater⟩ := exists_shifted_append hothers
    refine .more (Statement.shifted hstatement hfirst) (Semicolons.shifted hu hsemicolons)
      (ih hlater) fun hnil => ?_
    subst hnil
    cases hsemicolons
    exact Apart.shifted (hgap rfl) hfirst hlater

/-- What the tokens of a text are does not depend on where the text stands. -/
theorem Parser.Remainder.shifted {separated : Bool} (h : Remainder force separated es w)
    (hw : List.Forall₂ (Token.Shifted n n') w v) : Remainder force separated es v := by
  cases h with
  | none hu => exact .none (Semicolons.shifted hu hw)
  | statements hu hstatements hx hseparated =>
    obtain ⟨u', rest, rfl, hfirst, hothers⟩ := exists_shifted_append hw
    obtain ⟨w', x', rfl, hmiddle, hlast⟩ := exists_shifted_append hothers
    refine .statements (Semicolons.shifted hu hfirst) (Statements.shifted hstatements hmiddle)
      (Semicolons.shifted hx hlast) fun hnil => hseparated ?_
    subst hnil
    cases hfirst
    rfl

end Shifted

section Joining

variable {force : Bool} {p q u v w x : List Token} {e : Expr} {es es' : List Expr}

theorem Grammar.Statements.getLast?_ne_semicolon (h : Statements force w es) :
    ∃ token, w.getLast? = some token ∧ token.kind ≠ .semicolon := by
  induction h with
  | one hstatement =>
    obtain ⟨token, hlast, -⟩ := hstatement.stops
    exact ⟨token, hlast, hstatement.kind_ne_semicolon token (List.mem_of_getLast? hlast)⟩
  | more _ _ _ _ ih =>
    obtain ⟨token, hlast, hkind⟩ := ih
    exact ⟨token, by rw [List.getLast?_append, List.getLast?_append, hlast]; rfl, hkind⟩

theorem Grammar.Statements.append (h : Statements force w es) (hx : Semicolons x)
    (h' : Statements force v es') (hgap : x = [] → Apart force w v) :
    Statements force (w ++ (x ++ v)) (es ++ es') := by
  induction h with
  | one hstatement => exact .more hstatement hx h' hgap
  | @more w u w' e es hstatement hu hrest hfirst ih =>
    obtain ⟨token, hlast, -⟩ := Statements.getLast?_ne_semicolon hrest
    obtain ⟨head, others, rfl, -⟩ := hrest.starts
    have hall := ih fun hnil => (hgap hnil).congr
      (by rw [List.getLast?_append, List.getLast?_append, hlast]; rfl) rfl
    have htokens : w ++ (u ++ head :: others) ++ (x ++ v) =
        w ++ (u ++ (head :: others ++ (x ++ v))) := by simp
    rw [htokens]
    exact .more hstatement hu hall fun hnil => (hfirst hnil).congr rfl rfl

/-- Whether statements that end with one row of tokens and those that begin with another one stay
what they are: there is a semicolon, or what touches is apart. -/
def Parted (force : Bool) (p q : List Token) : Prop :=
  (∃ token, p.getLast? = some token ∧ token.kind = .semicolon) ∨
    (∃ token, q.head? = some token ∧ token.kind = .semicolon) ∨ Apart force p q

/-- Semicolons in front make no difference. -/
theorem Parser.Remainder.semicolons {separated : Bool} (hu : Semicolons u)
    (h : Remainder force true es q) (hseparated : u = [] → separated = true) :
    Remainder force separated es (u ++ q) := by
  cases h with
  | none hx => exact .none (List.forall_mem_append.mpr ⟨hu, hx⟩)
  | statements hx hw hv _ =>
    rw [← List.append_assoc]
    exact .statements (List.forall_mem_append.mpr ⟨hu, hx⟩) hw hv fun hnil =>
      hseparated (List.append_eq_nil_iff.mp hnil).1

/-- Statements that meet without a semicolon are apart. -/
theorem Parted.apart (h : Parted force (u ++ w) (v ++ x)) (hw : Statements force w es)
    (hv : Statements force v es') : Apart force w v := by
  obtain ⟨last, hlast, hkind⟩ := hw.getLast?_ne_semicolon
  obtain ⟨head, rest, rfl, hhead⟩ := hv.starts
  have hsame : (u ++ w).getLast? = some last := by rw [List.getLast?_append, hlast]; rfl
  rcases h with ⟨token, htoken, hsemicolon⟩ | ⟨token, htoken, hsemicolon⟩ | hapart
  · cases htoken.symm.trans hsame
    exact absurd hsemicolon hkind
  · cases htoken
    exact absurd hsemicolon (TokenKind.ne_of_startsStatement hhead rfl)
  · exact hapart.congr (hsame.trans hlast.symm) rfl

/-- Two rows of tokens that are parted are the statements of both. -/
theorem Parser.Remainder.append (h : Remainder force true es p) (h' : Remainder force true es' q)
    (hparted : Parted force p q) : Remainder force true (es ++ es') (p ++ q) := by
  cases h with
  | none hu => exact h'.semicolons hu fun _ => rfl
  | @statements u w v _ hu hw hv _ =>
    cases h' with
    | none hx =>
      have hend : Semicolons (v ++ q) := List.forall_mem_append.mpr ⟨hv, hx⟩
      rw [List.append_nil, List.append_assoc, List.append_assoc]
      exact .statements hu hw hend fun _ => rfl
    | @statements u' w' v' _ hu' hw' hv' _ =>
      -- the semicolons that end the first row and those that begin the second one become one run
      have hgap : v ++ u' = [] → Apart force w w' := by
        intro hnil
        obtain ⟨rfl, rfl⟩ := List.append_eq_nil_iff.mp hnil
        rw [List.append_nil] at hparted
        exact hparted.apart (x := v') hw hw'
      have hall := hw.append (List.forall_mem_append.mpr ⟨hv, hu'⟩) hw' hgap
      have htokens : u ++ (w ++ v) ++ (u' ++ (w' ++ v')) =
          u ++ (w ++ (v ++ u' ++ w') ++ v') := by simp
      rw [htokens]
      exact .statements hu hall hv' fun _ => rfl

end Joining

section Splitting

variable {force : Bool} {p q u v w x : List Token} {semicolon : Token} {e : Expr} {es : List Expr}

/-- A semicolon stands behind a statement or before it, but never within. -/
theorem Grammar.Statement.exists_of_append_eq (h : Statement w e)
    (hkind : semicolon.kind = .semicolon) (heq : w ++ x = p ++ semicolon :: q) :
    ∃ p', p = w ++ p' ∧ x = p' ++ semicolon :: q := by
  rcases List.append_eq_append_iff.mp heq with hbehind | ⟨others, rfl, hothers⟩
  · exact hbehind
  · cases others with
    | nil => exact ⟨[], by simp, hothers.symm⟩
    | cons token rest =>
      cases hothers
      exact absurd hkind (h.kind_ne_semicolon semicolon (by simp))

/-- A semicolon stands behind a row of semicolons, or it is one of them. -/
theorem Grammar.Semicolons.exists_of_append_eq (h : Semicolons u)
    (heq : u ++ x = p ++ semicolon :: q) :
    (∃ p', p = u ++ p' ∧ x = p' ++ semicolon :: q) ∨
      Semicolons p ∧ ∃ u', Semicolons u' ∧ q = u' ++ x := by
  rcases List.append_eq_append_iff.mp heq with hbehind | ⟨others, rfl, hothers⟩
  · exact .inl hbehind
  · obtain ⟨hp, hrest⟩ := List.forall_mem_append.mp h
    cases others with
    | nil => exact .inl ⟨[], by simp, hothers.symm⟩
    | cons token rest =>
      cases hothers
      exact .inr ⟨hp, rest, (List.forall_mem_cons.mp hrest).2, rfl⟩

theorem Parser.Remainder.lone (h : Statement w e) (hx : Semicolons x) :
    Remainder force true [e] (w ++ x) :=
  .statements (List.forall_mem_nil _) (.one h) hx fun _ => rfl

/-- Statements are divided by each semicolon between and behind them. -/
theorem Grammar.Statements.split (h : Statements force w es) (hv : Semicolons v)
    (hkind : semicolon.kind = .semicolon) (heq : w ++ v = p ++ semicolon :: q) :
    ∃ first later, es = first ++ later ∧ Remainder force true first p ∧
      Remainder force true later q := by
  induction h generalizing p with
  | @one w e hstatement =>
    obtain ⟨p', rfl, rfl⟩ := hstatement.exists_of_append_eq hkind heq
    obtain ⟨hp', hq⟩ := List.forall_mem_append.mp hv
    exact ⟨[e], [], rfl, .lone hstatement hp', .none (List.forall_mem_cons.mp hq).2⟩
  | @more w u w' e es hstatement hu hrest hgap ih =>
    rw [List.append_assoc, List.append_assoc] at heq
    obtain ⟨p', rfl, hothers⟩ := hstatement.exists_of_append_eq hkind heq
    rcases hu.exists_of_append_eq hothers with ⟨p'', rfl, hlater⟩ | ⟨hp', u', hu', rfl⟩
    · obtain ⟨first, later, rfl, hfirst, hsecond⟩ := ih hlater
      refine ⟨e :: first, later, rfl, ?_, hsecond⟩
      -- what is left of the next statement, if anything, begins with the same token
      cases u with
      | nil =>
        refine .cons hstatement hfirst fun _ ⟨token, rest, hp'', _⟩ => ?_
        obtain ⟨head, others, rfl, -⟩ := hrest.starts
        subst hp''
        obtain rfl : head = token := List.head_eq_of_cons_eq hlater
        exact (hgap rfl).congr rfl rfl
      | cons token rest =>
        have hothers : Remainder force false first (token :: rest ++ p'') :=
          hfirst.semicolons hu fun hnil => absurd hnil (List.cons_ne_nil token rest)
        exact .cons hstatement hothers fun hseparated => Bool.noConfusion hseparated
    · exact ⟨[e], es, rfl, .lone hstatement hp', .statements hu' hrest hv fun _ => rfl⟩

/-- Each semicolon of a row of statements divides it in two. -/
theorem Parser.Remainder.split (h : Remainder force true es (p ++ semicolon :: q))
    (hkind : semicolon.kind = .semicolon) :
    ∃ first later, es = first ++ later ∧ Remainder force true first p ∧
      Remainder force true later q := by
  generalize htokens : p ++ semicolon :: q = tokens at h
  cases h with
  | none hu =>
    subst htokens
    obtain ⟨hp, hrest⟩ := List.forall_mem_append.mp hu
    exact ⟨[], [], rfl, .none hp, .none (List.forall_mem_cons.mp hrest).2⟩
  | @statements u w v _ hu hw hv _ =>
    rcases hu.exists_of_append_eq htokens.symm with ⟨p', rfl, hlater⟩ | ⟨hp, u', hu', rfl⟩
    · obtain ⟨first, later, rfl, hfirst, hothers⟩ := hw.split hv hkind hlater
      exact ⟨first, later, rfl, hfirst.semicolons hu fun _ => rfl, hothers⟩
    · exact ⟨[], es, rfl, .none hp, .statements hu' hw hv fun _ => rfl⟩

end Splitting

section Texts

variable {room room' : Room} {force : Bool} {s s' gap : String} {e e' whole : Expr}
  {es : List Expr} {tokens tokens' : List Token}

/-- A text with no other tokens than semicolons has no other characters than these and blanks. -/
theorem TokenRule.forall_of_semicolons {name : String} {place : Text.Place} {text : List Char}
    (h : tokensFrom standard name place text = .ok tokens) (hu : Semicolons tokens) :
    ∀ c ∈ text, Text.isBlank c = true ∨ c = ';' := by
  induction h using tokensInduction with
  | nil place => simp
  | taken place taken rest rule others hne hfirst hothers ih =>
    obtain ⟨hhead, hrest⟩ := List.forall_mem_append.mp hu
    refine List.forall_mem_append.mpr ⟨?_, ih hrest⟩
    obtain ⟨hrule, word, heq, hword⟩ := exists_of_first? hfirst
    obtain rfl : taken = word := List.append_cancel_right heq
    by_cases hkind : rule.kind = .whitespace
    · exact fun c member => .inl ((gap_of_first? hfirst hkind).1 c member)
    · have hsemicolon : rule.kind = .semicolon := by
        rw [token?_standard hrule hne, if_neg hkind] at hhead
        exact hhead _ List.mem_cons_self
      have hsingle : ∀ rule ∈ standard, rule.kind = .semicolon → rule.pattern = .char ';' := by
        decide
      rw [hsingle rule hrule hsemicolon, Pattern.matches_char] at hword
      simp [hword]

/-- Whether a text is some statements. One that is none at all is no formula, but made of blanks
and semicolons alone. -/
def HasStatements (force : Bool) (s : String) (es : List Expr) : Prop :=
  (∃ e, parse .unlimited force (some s) = .ok e ∧ e.statements = es) ∨
    es = [] ∧ ∀ c ∈ s.toList, Text.isBlank c = true ∨ c = ';'

theorem hasStatements_of_remainder (lexed : lex standard (some s) = .ok tokens)
    (h : Remainder force true es tokens) : HasStatements force s es := by
  cases h with
  | none hu => exact .inr ⟨rfl, TokenRule.forall_of_semicolons lexed hu⟩
  | statements hu hw hv hseparated =>
    have hsome : es ≠ [] := by cases hw <;> exact List.cons_ne_nil _ _
    exact .inl (exists_parse_of_remainder lexed (.statements hu hw hv hseparated) hsome)

/-- A formula that is two texts with a semicolon between has the statements of both, and none that
reaches from one into the other. -/
theorem hasStatements_of_parse (parsed : parse room force (some (s ++ ";" ++ s')) = .ok whole) :
    ∃ es es', whole.statements = es ++ es' ∧ HasStatements force s es ∧
      HasStatements force s' es' := by
  obtain ⟨tokens, lexed⟩ := exists_lex_of_parse parsed
  have hremainder := remainder_of_parse lexed parsed
  have htext : (s ++ ";" ++ s').toList = s.toList ++ ';' :: s'.toList := by simp
  rw [lex, htext, TokenRule.tokensFrom_append (TokenRule.parts_semicolon s.toList)] at lexed
  obtain ⟨left, hleft, lexed⟩ := exists_of_bind_eq_ok lexed
  rw [tokensFrom_semicolon] at lexed
  obtain ⟨others, hothers, lexed⟩ := exists_of_bind_eq_ok lexed
  obtain ⟨right, hright, hsame⟩ := exists_of_bind_eq_ok hothers
  cases hsame
  cases lexed
  obtain ⟨es, es', hes, hfirst, hsecond⟩ := hremainder.split rfl
  -- the second text has its tokens where it stands alone, too
  obtain ⟨alone, halone, hshifted⟩ := TokenRule.exists_shifted s'
    (Nat.add_comm ((Text.Place.start.advance s.toList).advance [';']).position
      Text.Place.start.position) hright
  exact ⟨es, es', hes, hasStatements_of_remainder (TokenRule.tokensFrom_whole s hleft) hfirst,
    hasStatements_of_remainder halone (hsecond.shifted hshifted)⟩

/-- Whether blanks keep two formulas apart: a semicolon ends the first one or begins the other, or
the other begins with an operand, and not with a parenthesis that may belong to a word. -/
def KeptApart (tokens tokens' : List Token) : Prop :=
  ∃ before next, tokens.getLast? = some before ∧ tokens'.head? = some next ∧
    (before.kind = .semicolon ∨ next.kind = .semicolon ∨ next.kind = .number ∨
      next.kind = .identifier ∨ next.kind = .lparen ∧ before.kind ≠ .identifier)

theorem KeptApart.parted {n n' : Nat} {right : List Token} (h : KeptApart tokens tokens')
    (hright : List.Forall₂ (Token.Shifted n n') tokens' right)
    (hgap : ∀ token ∈ tokens, ∀ next ∈ right, ¬ Touches token next) :
    Parted false tokens right := by
  obtain ⟨before, next, hbefore, hnext, hkinds⟩ := h
  obtain ⟨next', hnext', hshifted⟩ := exists_shifted_head? hright hnext
  rw [hshifted.kind] at hkinds
  have htouches : ¬ Touches before next' :=
    hgap before (List.mem_of_getLast? hbefore) next' (List.mem_of_head? hnext')
  have hapart : (next'.kind = .number ∨ next'.kind = .identifier ∨ next'.kind = .lparen) →
      ¬ (before.kind = .identifier ∧ next'.kind = .lparen) → Parted false tokens right :=
    fun hkind hcall =>
      .inr (.inr ⟨rfl, before, next', hbefore, hnext', hkind, htouches, hcall⟩)
  rcases hkinds with hkind | hkind | hkind | hkind | ⟨hkind, hword⟩
  · exact .inl ⟨before, hbefore, hkind⟩
  · exact .inr (.inl ⟨next', hnext', hkind⟩)
  · exact hapart (.inl hkind) fun hcall => by simp [hkind] at hcall
  · exact hapart (.inr (.inl hkind)) fun hcall => by simp [hkind] at hcall
  · exact hapart (.inr (.inr hkind)) fun hcall => hword hcall.1

/-- Two formulas that are kept apart make one with blanks between them. -/
theorem parse_gap (hsome : gap ≠ "") (hgap : Text.IsGap gap.toList)
    (lexed : lex standard (some s) = .ok tokens) (lexed' : lex standard (some s') = .ok tokens')
    (hkept : KeptApart tokens tokens') (parsed : parse room false (some s) = .ok e)
    (parsed' : parse room' false (some s') = .ok e') :
    ∃ whole, parse .unlimited false (some (s ++ gap ++ s')) = .ok whole ∧
      whole.statements = e.statements ++ e'.statements := by
  obtain ⟨blank, blanks, hblanks⟩ :=
    List.exists_cons_of_ne_nil (mt String.toList_eq_nil_iff.mp hsome)
  rw [hblanks] at hgap
  have hblank : Text.isBlank blank = true := hgap blank List.mem_cons_self
  have htext : (s ++ gap ++ s').toList = s.toList ++ blank :: (blanks ++ s'.toList) := by
    simp [hblanks]
  obtain ⟨right, hright, hshifted⟩ := TokenRule.exists_shifted (s ++ gap ++ s')
    (Nat.add_comm Text.Place.start.position
      ((Text.Place.start.advance s.toList).advance (blank :: blanks)).position) lexed'
  have hleft := TokenRule.tokensFrom_whole (s ++ gap ++ s') lexed
  have hbehind : tokensFrom standard (s ++ gap ++ s') (Text.Place.start.advance s.toList)
      (blank :: (blanks ++ s'.toList)) = .ok right := by
    rw [← List.cons_append, TokenRule.tokensFrom_gap_append hgap, hright]
  have hstarts : Text.StartsBlank (blank :: (blanks ++ s'.toList)) := by
    intro c hc
    cases hc
    exact hblank
  have htouches : ∀ token ∈ tokens, ∀ next ∈ right, ¬ Touches token next := by
    rw [← Text.Place.advance_nil .start] at hleft
    exact not_touches hstarts hleft hbehind
  have hparted : Parted false tokens right := hkept.parted hshifted htouches
  have hremainder := (remainder_of_parse lexed parsed).append
    ((remainder_of_parse lexed' parsed').shifted hshifted) hparted
  refine exists_parse_of_remainder ?_ hremainder ?_
  · rw [lex, htext, TokenRule.tokensFrom_append_blank hblank, hleft, hbehind]
    rfl
  · have hpositive := (comprises_statements_of_parse lexed parsed).2.length_pos
    exact List.append_ne_nil_of_left_ne_nil (List.length_pos_iff.mp hpositive) _

/-- The statements of two formulas one behind the other are those of the first and then those of the
second one. A semicolon between them always separates them, in whatever room both fit, and what it
separates is a formula by itself or has no statements. Blanks separate them where statements need no
semicolons and nothing of the second formula can be taken for a part of the first one. -/
theorem parse_concatenation (s s' : String) :
    (∀ room force e e', parse room force (some s) = .ok e → parse room force (some s') = .ok e' →
      ∃ whole, parse room force (some (s ++ ";" ++ s')) = .ok whole ∧
        whole.statements = e.statements ++ e'.statements) ∧
    (∀ room force whole, parse room force (some (s ++ ";" ++ s')) = .ok whole →
      ∃ es es', whole.statements = es ++ es' ∧ HasStatements force s es ∧
        HasStatements force s' es') ∧
    ∀ gap : String, gap ≠ "" → Text.IsGap gap.toList → ∀ room room' e e' tokens tokens',
      lex standard (some s) = .ok tokens → lex standard (some s') = .ok tokens' →
      parse room false (some s) = .ok e → parse room' false (some s') = .ok e' →
      KeptApart tokens tokens' →
      ∃ whole, parse .unlimited false (some (s ++ gap ++ s')) = .ok whole ∧
        whole.statements = e.statements ++ e'.statements := by
  refine ⟨?_, fun _ _ _ => hasStatements_of_parse, ?_⟩
  · intro room force e e' parsed parsed'
    obtain ⟨es, es', hes, hes', hwhole⟩ := parse_append parsed parsed'
    obtain ⟨tokens, lexed⟩ := exists_lex_of_parse hwhole
    obtain ⟨hread, -⟩ := comprises_statements_of_parse lexed hwhole
    obtain ⟨hfirst, hsecond⟩ := List.forall_mem_append.mp
      (Parser.readsStatements_of_statements hread).areStatements
    refine ⟨_, hwhole, ?_⟩
    rw [hes.statements_eq hfirst, hes'.statements_eq hsecond]
    rfl
  · intro gap hsome hgap room room' e e' tokens tokens' lexed lexed' parsed parsed' hkept
    exact parse_gap hsome hgap lexed lexed' hkept parsed parsed'

end Texts

def leadingSource : String := "rate = 2 x (rate)"

def trailingSource : String := "(x) -y; max(rate, 1)"

theorem parse_concatenation_leading :
    ∃ e e' whole joined tokens tokens', parse .standard false (some leadingSource) = .ok e ∧
      parse .standard false (some trailingSource) = .ok e' ∧
      parse .standard false (some (leadingSource ++ ";" ++ trailingSource)) = .ok whole ∧
      whole.statements = e.statements ++ e'.statements ∧
      (∃ es es', whole.statements = es ++ es' ∧ HasStatements false leadingSource es ∧
        HasStatements false trailingSource es') ∧
      lex standard (some leadingSource) = .ok tokens ∧
      lex standard (some trailingSource) = .ok tokens' ∧ KeptApart tokens tokens' ∧
      parse .unlimited false (some (leadingSource ++ "\n " ++ trailingSource)) = .ok joined ∧
      joined.statements = e.statements ++ e'.statements := by
  obtain ⟨e, parsed, -⟩ := @exists_ok_of_any _ _ (parse .standard false (some leadingSource))
    (fun _ => true) (by decide +kernel)
  obtain ⟨e', parsed', -⟩ := @exists_ok_of_any _ _ (parse .standard false (some trailingSource))
    (fun _ => true) (by decide +kernel)
  obtain ⟨tokens, lexed, hlast⟩ := @exists_ok_of_any _ _ (lex standard (some leadingSource))
    (fun tokens => tokens.getLast?.any (·.kind == .rparen)) (by decide +kernel)
  obtain ⟨tokens', lexed', hhead⟩ := @exists_ok_of_any _ _ (lex standard (some trailingSource))
    (fun tokens => tokens.head?.any (·.kind == .lparen)) (by decide +kernel)
  obtain ⟨before, hbefore, hclosing⟩ := (Option.any_eq_true _ _).mp hlast
  obtain ⟨next, hnext, hopening⟩ := (Option.any_eq_true _ _).mp hhead
  have hkept : KeptApart tokens tokens' := by
    refine ⟨before, next, hbefore, hnext, .inr (.inr (.inr (.inr ⟨eq_of_beq hopening, ?_⟩)))⟩
    rw [eq_of_beq hclosing]
    decide
  obtain ⟨hboth, hwhole, hblank⟩ := parse_concatenation leadingSource trailingSource
  obtain ⟨whole, hparsed, hstatements⟩ := hboth .standard false e e' parsed parsed'
  have hgap : Text.IsGap "\n ".toList := List.all_eq_true.mp (by decide +kernel)
  obtain ⟨joined, hjoined, hsame⟩ := hblank "\n " (by decide) hgap .standard .standard e e'
    tokens tokens' lexed lexed' parsed parsed' hkept
  exact ⟨e, e', whole, joined, tokens, tokens', parsed, parsed', hparsed, hstatements,
    hwhole .standard false whole hparsed, lexed, lexed', hkept, hjoined, hsame⟩

end Formula
