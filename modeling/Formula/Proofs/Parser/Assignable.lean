import Formula.Proofs.Parser.Alongside
import Formula.Proofs.Parser.Grammatical
import Formula.Proofs.Parser.Shape

namespace Formula

open Formula.Expr Formula.Grammar Formula.Parser

namespace Grammar

/-- A run of tokens that stands for a variable: a word, or one in parentheses or behind plus signs.
As in the grammar, a sign behind an operator has to touch what it belongs to. -/
inductive Assignable : Bool → List Token → String → Prop where
  | word {b : Bool} {token : Token} :
    token.kind = .identifier → Assignable b [token] token.text
  | parenthesis {b : Bool} {w : List Token} {opening closing : Token} {name : String} :
    opening.kind = .lparen → Assignable false w name → closing.kind = .rparen →
    Assignable b (opening :: (w ++ [closing])) name
  | positive {b : Bool} {w : List Token} {sign : Token} {name : String} :
    sign.kind = .plus → (b = true → ∃ next, w.head? = some next ∧ Touches sign next) →
    Assignable true w name → Assignable b (sign :: w) name

/-- A run of tokens that is a word in any number of parentheses. -/
inductive Enclosed : List Token → String → Prop where
  | word {token : Token} : token.kind = .identifier → Enclosed [token] token.text
  | parenthesis {w : List Token} {opening closing : Token} {name : String} :
    opening.kind = .lparen → Enclosed w name → closing.kind = .rparen →
    Enclosed (opening :: (w ++ [closing])) name

variable {b : Bool} {u v w : List Token} {name : String} {phrase : Phrase} {e : Expr}
  {es : List Expr} {force : Bool}

theorem Enclosed.assignable (h : Enclosed w name) : Assignable b w name := by
  induction h generalizing b with
  | word hkind => exact .word hkind
  | parenthesis hopening _ hclosing ih => exact .parenthesis hopening ih hclosing

theorem Enclosed.kind_ne_plus (h : Enclosed w name) : ∀ token ∈ w, token.kind ≠ .plus := by
  induction h with
  | word hkind => simp [hkind]
  | parenthesis hopening _ hclosing ih =>
    simp only [List.forall_mem_cons, List.forall_mem_append, hopening, hclosing]
    exact ⟨by decide, ih, by decide, by simp⟩

/-- Without plus signs only parentheses are left around the word. -/
theorem Assignable.enclosed (h : Assignable b w name) (hplus : ∀ token ∈ w, token.kind ≠ .plus) :
    Enclosed w name := by
  induction h with
  | word hkind => exact .word hkind
  | parenthesis hopening _ hclosing ih =>
    exact .parenthesis hopening
      (ih fun token member => hplus token (by simp [member])) hclosing
  | positive hkind _ _ _ => exact absurd hkind (hplus _ (by simp))

theorem enclosed_iff :
    Enclosed w name ↔ Assignable b w name ∧ ∀ token ∈ w, token.kind ≠ .plus :=
  ⟨fun h => ⟨h.assignable, h.kind_ne_plus⟩, fun h => h.1.enclosed h.2⟩

/-- Whether a phrase has one tree, and which. A chain has one as long as it is a single operand. -/
def Phrase.Means (e : Expr) : Phrase → Prop
  | .summands es | .factors es => es = [e]
  | .sum e' | .product e' | .unary e' | .power e' | .primary e' => e' = e
  | .arguments _ => False

/-- Every phrase with the tree of a variable is one that stands for it. -/
theorem Derives.assignable (h : Derives b w phrase) (hmeans : phrase.Means (.variable name)) :
    Assignable b w name := by
  induction h with
  | summand _ ih | factor _ ih => exact ih (List.singleton_inj.mp hmeans)
  | onlySummand _ ih | onlyFactor _ ih => exact ih (congrArg ([·]) hmeans)
  | unsigned _ ih | base _ ih => exact ih hmeans
  | plus hfirst _ _ _ _ | minus hfirst _ _ _ _ =>
    exact absurd (List.append_eq_singleton_iff.mp hmeans) (by simp [hfirst.summands_ne_nil])
  | times hfirst _ _ _ _ | divide hfirst _ _ _ _ =>
    exact absurd (List.append_eq_singleton_iff.mp hmeans) (by simp [hfirst.factors_ne_nil])
  | sum _ _ _ | modulo _ _ _ _ _ | product _ _ _ | negative _ _ _ _ | power _ _ _ _ _
  | number _ _ | call _ _ _ _ _ | emptyCall _ _ _ | argument _ _ | arguments _ _ _ _ _ =>
    simp [Phrase.Means] at hmeans
  | positive hkind htouches _ ih => exact .positive hkind htouches (ih hmeans)
  | reference hkind =>
    cases hmeans
    exact .word hkind
  | parenthesis hopening _ hclosing ih => exact .parenthesis hopening (ih hmeans) hclosing

theorem derives_sum_of_unary (h : Derives b w (.unary e)) : Derives b w (.sum e) :=
  .onlySummand (.summand (.onlyFactor (.factor h)))

theorem Assignable.derives (h : Assignable b w name) : Derives b w (.unary (.variable name)) := by
  induction h with
  | word hkind => exact .unsigned (.base (.reference hkind))
  | parenthesis hopening _ hclosing ih =>
    exact .unsigned (.base (.parenthesis hopening (derives_sum_of_unary ih) hclosing))
  | positive hkind htouches _ ih => exact .positive hkind htouches ih

/-- The sums whose tree is a variable. -/
theorem derives_variable_iff : Derives b w (.sum (.variable name)) ↔ Assignable b w name :=
  ⟨fun h => h.assignable rfl, fun h => derives_sum_of_unary h.derives⟩

theorem Derives.kind_ne_assign (h : Derives b w phrase) : ∀ token ∈ w, token.kind ≠ .assign := by
  intro token member hkind
  have hwithin := h.isWithin token member
  rw [hkind] at hwithin
  cases hwithin

/-- Whether the trees of a phrase hold neither assignments nor blocks. -/
def Phrase.IsPlain : Phrase → Prop
  | .summands es | .factors es | .arguments es => ∀ e ∈ es, e.Everywhere Expr.IsPlain
  | .sum e | .product e | .unary e | .power e | .primary e => e.Everywhere Expr.IsPlain

theorem Derives.isPlain (h : Derives b w phrase) : phrase.IsPlain := by
  induction h with
  | summand _ ih | factor _ ih | argument _ ih => exact List.forall_mem_singleton.mpr ih
  | onlySummand _ ih | onlyFactor _ ih => exact ih _ List.mem_cons_self
  | unsigned _ ih | base _ ih | positive _ _ _ ih | parenthesis _ _ _ ih => exact ih
  | plus _ _ _ ihFirst ihLast | times _ _ _ ihFirst ihLast =>
    exact List.forall_mem_append.mpr ⟨ihFirst, List.forall_mem_singleton.mpr ihLast⟩
  | minus _ _ _ ihFirst ihLast | divide _ _ _ ihFirst ihLast =>
    exact List.forall_mem_append.mpr
      ⟨ihFirst, List.forall_mem_singleton.mpr (isPlain_single rfl rfl ihLast)⟩
  | sum _ htwo ih | product _ htwo ih => exact isPlain_chain rfl htwo ih
  | modulo _ _ _ ihFirst ihLast =>
    exact List.forall_mem_singleton.mpr (isPlain_pair rfl ihFirst ihLast)
  | negative _ _ _ ih => exact isPlain_single rfl rfl ih
  | power _ _ _ ihBase ihExponent => exact isPlain_pair rfl ihBase ihExponent
  | number _ _ => exact everywhere_number.mpr trivial
  | reference _ => exact everywhere_variable.mpr trivial
  | call _ _ _ _ ih => exact everywhere_call.mpr ⟨trivial, ih⟩
  | emptyCall _ _ _ => exact everywhere_call.mpr ⟨trivial, by simp⟩
  | arguments _ _ _ ihFirst ihRest => exact List.forall_mem_cons.mpr ⟨ihFirst, ihRest⟩

/-- How a statement is written and what it comes to: it has no equals sign and no assignment, or one
equals sign behind what may be assigned to, and it is the assignment to that. -/
inductive Assigns : List Token → Expr → Prop where
  | plain {w : List Token} {e : Expr} :
    Derives false w (.sum e) → (∀ token ∈ w, token.kind ≠ .assign) →
    e.Everywhere Expr.IsPlain → Assigns w e
  | assignment {w v : List Token} {equals : Token} {name : String} {value : Expr} :
    Assignable false w name → equals.kind = .assign → Derives false v (.sum value) →
    (∀ token ∈ v, token.kind ≠ .assign) → value.Everywhere Expr.IsPlain →
    Assigns (w ++ equals :: v) (.assignment (.variable name) value)

theorem Statement.assigns (h : Statement w e) : Assigns w e := by
  cases h with
  | sum hsum => exact .plain hsum hsum.kind_ne_assign hsum.isPlain
  | assignment htarget hkind hvalue =>
    exact .assignment (derives_variable_iff.mp htarget) hkind hvalue hvalue.kind_ne_assign
      hvalue.isPlain

/-- The only assignment in a statement is the statement itself. -/
theorem Assigns.eq_of_mem_nodes (h : Assigns w e) {target value : Expr}
    (member : .assignment target value ∈ e.nodes) : .assignment target value = e := by
  cases h with
  | plain _ _ hplain => exact (hplain _ member).elim
  | assignment _ _ _ _ hplain =>
    simp only [nodes, List.mem_cons, List.mem_append] at member
    rcases member with h | (h | h) | h
    · exact h
    · cases h
    · cases h
    · exact (hplain _ h).elim

/-- How the tokens of a program fall into the runs of its statements: there are semicolons around
and between them, or two runs are apart. -/
inductive Divides (force : Bool) : List (List Token) → List Token → Prop where
  | last {u w v : List Token} : Semicolons u → Semicolons v → Divides force [w] (u ++ (w ++ v))
  | next {u w v : List Token} {runs : List (List Token)} :
    Semicolons u → Divides force runs v →
    (∃ token, v.head? = some token ∧ token.kind = .semicolon) ∨ Apart force w v →
    Divides force (w :: runs) (u ++ (w ++ v))

theorem Statements.exists_divides (h : Statements force w es) (hu : Semicolons u)
    (hv : Semicolons v) :
    ∃ runs, Divides force runs (u ++ (w ++ v)) ∧ List.Forall₂ Statement runs es := by
  induction h generalizing u with
  | @one w e hfirst => exact ⟨[w], .last hu hv, .cons hfirst .nil⟩
  | @more w x y e es hfirst hx hrest hgap ih =>
    obtain ⟨runs, hruns, hall⟩ := ih hx
    refine ⟨w :: runs, ?_, .cons hfirst hall⟩
    have hnext : (∃ token, (x ++ (y ++ v)).head? = some token ∧ token.kind = .semicolon) ∨
        Apart force w (x ++ (y ++ v)) := by
      cases x with
      | nil =>
        obtain ⟨token, rest, rfl, -⟩ := hrest.starts
        exact .inr (hgap rfl)
      | cons semicolon others => exact .inl ⟨semicolon, rfl, hx semicolon List.mem_cons_self⟩
    simpa only [List.append_assoc] using Divides.next hu hruns hnext

theorem Program.exists_divides {tokens : List Token} (h : Program force tokens e) :
    ∃ runs es, Divides force runs tokens ∧ List.Forall₂ Assigns runs es ∧ e.Comprises es := by
  have hall : ∀ {runs : List (List Token)} {es : List Expr}, List.Forall₂ Statement runs es →
      List.Forall₂ Assigns runs es := fun h => h.imp fun _ _ hstatement => hstatement.assigns
  cases h with
  | @statement _ _ _ e hu hw hv => exact ⟨_, [e], .last hu hv, .cons hw.assigns .nil, .inl rfl⟩
  | @block _ _ _ es hu hw htwo hv =>
    obtain ⟨runs, hruns, hstatements⟩ := hw.exists_divides hu hv
    exact ⟨runs, es, hruns, hall hstatements, .inr ⟨rfl, htwo⟩⟩

theorem Assigns.statement (h : Assigns w e) : Statement w e := by
  cases h with
  | plain hsum _ _ => exact .sum hsum
  | assignment htarget hkind hvalue _ _ =>
    exact .assignment (derives_variable_iff.mpr htarget) hkind hvalue

theorem Divides.exists_statements {runs : List (List Token)} {tokens : List Token}
    (h : Divides force runs tokens) (hall : List.Forall₂ Assigns runs es) :
    ∃ u w v, tokens = u ++ (w ++ v) ∧ Semicolons u ∧ Statements force w es ∧ Semicolons v := by
  induction h generalizing es with
  | last hu hv =>
    obtain ⟨e, _, hfirst, hnil, rfl⟩ := List.forall₂_cons_left_iff.mp hall
    cases hnil
    exact ⟨_, _, _, rfl, hu, .one hfirst.statement, hv⟩
  | @next u w _ runs hu _ hgap ih =>
    obtain ⟨e, others, hfirst, hrest, rfl⟩ := List.forall₂_cons_left_iff.mp hall
    obtain ⟨x, y, v, rfl, hx, hothers, hv⟩ := ih hrest
    have hnext : x = [] → Apart force w y := by
      rintro rfl
      obtain ⟨token, rest, rfl, hkind⟩ := hothers.starts
      rcases hgap with ⟨other, hother, hsemicolon⟩ | hapart
      · cases hother
        rw [hsemicolon] at hkind
        cases hkind
      · exact hapart
    refine ⟨u, w ++ (x ++ y), v, ?_, hu, .more hfirst.statement hx hothers hnext, hv⟩
    simp only [List.append_assoc]

/-- A program is what can be divided into statements each of which assigns to what it may, if it
assigns to anything. -/
theorem program_iff_divides {tokens : List Token} :
    Program force tokens e ↔
      ∃ runs es, Divides force runs tokens ∧ List.Forall₂ Assigns runs es ∧ e.Comprises es := by
  constructor
  · exact Program.exists_divides
  · rintro ⟨runs, es, hdivides, hall, hcomprises⟩
    obtain ⟨u, w, v, rfl, hu, hw, hv⟩ := hdivides.exists_statements hall
    rcases hcomprises with rfl | ⟨rfl, htwo⟩
    · cases hw with
      | one hstatement => exact .statement hu hstatement hv
      | more _ _ hothers _ => cases hothers
    · exact .block hu hw htwo hv

theorem mem_of_mem_nodesOf {runs : List (List Token)} (h : List.Forall₂ Assigns runs es)
    {target value : Expr} (member : .assignment target value ∈ nodesOf es) :
    .assignment target value ∈ es := by
  induction h with
  | nil => simp [nodesOf] at member
  | cons first _ ih =>
    rw [nodesOf, List.mem_append] at member
    rcases member with member | member
    · rw [first.eq_of_mem_nodes member]
      exact List.mem_cons_self
    · exact List.mem_cons_of_mem _ (ih member)

/-- Assignments stand nowhere but as statements. -/
theorem mem_of_mem_nodes {runs : List (List Token)} (hcomprises : e.Comprises es)
    (h : List.Forall₂ Assigns runs es) {target value : Expr}
    (member : .assignment target value ∈ e.nodes) : .assignment target value ∈ es := by
  refine mem_of_mem_nodesOf h ?_
  rcases hcomprises with rfl | ⟨rfl, -⟩
  · simpa [nodesOf] using member
  · simpa [nodes] using member

theorem Statements.stops (h : Statements force w es) :
    ∃ token, w.getLast? = some token ∧ token.kind.isOperator = false := by
  induction h with
  | one hfirst => exact hfirst.stops
  | more _ _ _ _ ih =>
    obtain ⟨token, hlast, hkind⟩ := ih
    exact ⟨token, by simp [hlast], hkind⟩

/-- Where a statement begins, and with which run: behind semicolons alone, or behind statements that
a semicolon or a gap parts from it. -/
inductive Begins (force : Bool) : List Token → List Token → Prop where
  | first {u w : List Token} : Semicolons u → Begins force u w
  | later {u s v w : List Token} {es : List Expr} :
    Semicolons u → Statements force s es → Semicolons v → (v = [] → Apart force s w) →
    Begins force (u ++ (s ++ v)) w

end Grammar

end Formula
