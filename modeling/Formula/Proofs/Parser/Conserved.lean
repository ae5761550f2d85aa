import Formula.Proofs.CommandLine.Overflow
import Formula.Proofs.Function.Registry
import Formula.Proofs.Parser.Grammatical

namespace Formula

open Formula.Expr (nodesOf)
open Grammar

/-- What a formula speaks of: a number, a variable, or a function that is called. -/
inductive Mention where
  | number (value : Value)
  | reference (name : String)
  | call (name : String)

namespace Expr

def mention? : Expr → Option Mention
  | .number value => some (.number value)
  | .variable name => some (.reference name)
  | .call name _ => some (.call name)
  | _ => none

/-- The kind of the token that a node stands for, where it takes one such token to write it. -/
def mark? : Expr → Option TokenKind
  | .operation .power _ => some .power
  | .operation .remainder _ => some .modulo
  | .operation .reciprocal _ => some .divide
  | .operation .negate _ => some .minus
  | .assignment .. => some .assign
  | _ => none

end Expr

/-- The kinds of tokens that each leave a node of their own. -/
def TokenKind.marks : List TokenKind := [.power, .modulo, .divide, .minus, .assign]

/-- The kinds of tokens that leave no trace in a tree. -/
def TokenKind.silent : List TokenKind := [.plus, .multiply, .lparen, .rparen, .comma, .semicolon]

/-- What a token speaks of. A word before an opening parenthesis is the name of a function. -/
def Token.mention? (token : Token) (next : Option Token) : Option Mention :=
  match token.kind with
  | .number => (Decimal.readNumeral false token.text.toList).map fun x => .number (.float x)
  | .identifier =>
    some (if next.any (·.kind = .lparen) then .call token.text else .reference token.text)
  | _ => none

/-- What a row of tokens speaks of, in order. -/
def mentions : List Token → List Mention
  | [] => []
  | token :: rest => (token.mention? rest.head?).toList ++ mentions rest

variable {v w : List Token} {token : Token} {kind : TokenKind} {own ns ms : List Expr} {node : Expr}

/-- Whether what stands in one run can be told without the next one: no word meets a parenthesis. -/
def Seam (w v : List Token) : Prop :=
  ∀ before next, w.getLast? = some before → v.head? = some next →
    ¬ (before.kind = .identifier ∧ next.kind = .lparen)

theorem seam_of_head (h : ∀ next, v.head? = some next → next.kind ≠ .lparen) : Seam w v :=
  fun _ next _ hnext hmeet => h next hnext hmeet.2

theorem seam_of_last (h : ∀ before, w.getLast? = some before → before.kind ≠ .identifier) :
    Seam w v :=
  fun before _ hbefore _ hmeet => h before hbefore hmeet.1

theorem Token.mention?_congr {next next' : Option Token} (h : token.kind = .identifier →
    next.any (·.kind = .lparen) = next'.any (·.kind = .lparen)) :
    token.mention? next = token.mention? next' := by
  unfold Token.mention?
  split
  next => rfl
  next hkind => rw [h hkind]
  next => rfl

theorem mentions_append (h : Seam w v) : mentions (w ++ v) = mentions w ++ mentions v := by
  induction w with
  | nil => rfl
  | cons token rest ih =>
    rw [List.cons_append, mentions, mentions, List.append_assoc]
    cases rest with
    | nil =>
      have hsame : token.mention? v.head? = token.mention? none := by
        refine Token.mention?_congr fun hkind => ?_
        cases hnext : v.head? with
        | none => rfl
        | some next => simpa using fun hparen => h token next rfl hnext ⟨hkind, hparen⟩
      rw [List.nil_append, hsame]
      rfl
    | cons second rest =>
      rw [ih fun before next hbefore => h before next (by simpa using hbefore)]
      rfl

/-- A run of tokens and a list of nodes speak of the same in the same order, and they agree in the
number of marks of each kind. -/
structure Conserves (w : List Token) (ns : List Expr) : Prop where
  mentions : mentions w = ns.filterMap Expr.mention?
  marks : ∀ kind ∈ TokenKind.marks,
    ns.countP (·.mark? = some kind) = w.countP (·.kind = kind)

namespace Conserves

theorem nil : Conserves [] [] :=
  ⟨rfl, fun _ _ => rfl⟩

theorem append (h : Conserves w ns) (h' : Conserves v ms) (hseam : Seam w v) :
    Conserves (w ++ v) (ns ++ ms) where
  mentions := by rw [mentions_append hseam, h.mentions, h'.mentions, List.filterMap_append]
  marks kind member := by
    rw [List.countP_append, List.countP_append, h.marks kind member, h'.marks kind member]

/-- A node that speaks of nothing may stand anywhere among the others. -/
theorem front (h : Conserves w (ns ++ node :: ms)) (hnode : node.mention? = none) :
    Conserves w (node :: (ns ++ ms)) where
  mentions := by
    rw [h.mentions, List.filterMap_append, List.filterMap_cons_none hnode,
      List.filterMap_cons_none hnode, List.filterMap_append]
  marks kind member := by
    rw [← h.marks kind member]
    exact (List.perm_middle.countP_eq _).symm

/-- A node that leaves no trace in a text may be put in front. -/
theorem wrap (h : Conserves w ns) (hnode : node.mention? = none) (hmark : node.mark? = none) :
    Conserves w (node :: ns) where
  mentions := by rw [h.mentions, List.filterMap_cons_none hnode]
  marks kind member := by
    rw [← h.marks kind member]
    exact List.countP_cons_of_neg (by simp [hmark])

theorem silent (hkind : token.kind = kind) (h : kind ∈ TokenKind.silent) :
    Conserves [token] [] where
  mentions := by
    have htoken : token.mention? none = none := by
      revert h
      rw [Token.mention?, hkind]
      cases kind <;> simp [TokenKind.silent]
    simp [Formula.mentions, htoken]
  marks kind' member := by
    have hne : token.kind ≠ kind' := by
      rintro rfl
      rw [hkind] at member
      revert h member
      cases kind <;> simp [TokenKind.marks, TokenKind.silent]
    simp [hne]

theorem mark (hkind : token.kind = kind) (hmark : node.mark? = some kind)
    (member : kind ∈ TokenKind.marks) : Conserves [token] [node] where
  mentions := by
    have hnode : node.mention? = none := by
      revert hmark
      cases node <;> simp [Expr.mark?, Expr.mention?]
    have htoken : token.mention? none = none := by
      revert member
      rw [Token.mention?, hkind]
      cases kind <;> simp [TokenKind.marks]
    simp [Formula.mentions, htoken, hnode]
  marks kind' _ := by simp [hmark, hkind]

theorem number {x : Float} (hkind : token.kind = .number)
    (hx : Decimal.readNumeral false token.text.toList = some x) :
    Conserves [token] [.number (.float x)] where
  mentions := by simp [Formula.mentions, Token.mention?, hkind, hx, Expr.mention?]
  marks kind member := by
    have hne : token.kind ≠ kind := by
      rintro rfl
      simp [hkind, TokenKind.marks] at member
    simp [hne, Expr.mark?]

theorem reference (hkind : token.kind = .identifier) :
    Conserves [token] [.variable token.text] where
  mentions := by simp [Formula.mentions, Token.mention?, hkind, Expr.mention?]
  marks kind member := by
    have hne : token.kind ≠ kind := by
      rintro rfl
      simp [hkind, TokenKind.marks] at member
    simp [hne, Expr.mark?]

/-- Two runs around a token that is neither a word nor an opening parenthesis. -/
theorem around (h : Conserves w ns) (htoken : Conserves [token] own) (h' : Conserves v ms)
    (hkind : token.kind = kind) (hapart : kind ≠ .identifier ∧ kind ≠ .lparen) :
    Conserves (w ++ token :: v) (ns ++ (own ++ ms)) := by
  subst hkind
  have hlast : Seam [token] v := seam_of_last fun before hbefore => by
    cases hbefore
    exact hapart.1
  have hhead : Seam w (token :: v) := seam_of_head fun next hnext => by
    cases hnext
    exact hapart.2
  exact h.append (htoken.append h' hlast) hhead

/-- Two runs around a token that leaves no trace in the tree. -/
theorem divided (h : Conserves w ns) (h' : Conserves v ms) (hkind : token.kind = kind)
    (hsilent : kind ∈ TokenKind.silent) (hparen : kind ≠ .lparen) :
    Conserves (w ++ token :: v) (ns ++ ms) := by
  have hword : kind ≠ .identifier := by
    rintro rfl
    simp [TokenKind.silent] at hsilent
  exact h.around (silent hkind hsilent) h' hkind ⟨hword, hparen⟩

theorem enclosed {opening closing : Token} (h : Conserves w ns)
    (hopening : opening.kind = .lparen) (hclosing : closing.kind = .rparen) :
    Conserves (opening :: (w ++ [closing])) ns := by
  have hinner := h.divided nil hclosing (by decide) (by decide)
  have hlast : Seam [opening] (w ++ [closing]) := seam_of_last fun before hbefore => by
    cases hbefore
    simp [hopening]
  simpa using (silent hopening (by decide)).append hinner hlast

theorem call {name opening closing : Token} {es : List Expr} (hname : name.kind = .identifier)
    (hopening : opening.kind = .lparen) (h : Conserves w (nodesOf es))
    (hclosing : closing.kind = .rparen) :
    Conserves (name :: opening :: (w ++ [closing])) (Expr.nodes (.call name.text es)) where
  mentions := by
    rw [Formula.mentions, (h.enclosed hopening hclosing).mentions]
    simp [Token.mention?, hname, hopening, Expr.nodes, Expr.mention?]
  marks kind member := by
    have hne : name.kind ≠ kind := by
      rintro rfl
      simp [hname, TokenKind.marks] at member
    rw [Expr.nodes, List.countP_cons_of_neg (by simp [Expr.mark?]),
      (h.enclosed hopening hclosing).marks kind member,
      List.countP_cons_of_neg (a := name) (by simpa)]

/-- A mark between two runs, whose node stands before the nodes of both. -/
theorem operation (h : Conserves w ns) (h' : Conserves v ms)
    (hkind : token.kind = kind) (hmark : node.mark? = some kind) (member : kind ∈ TokenKind.marks) :
    Conserves (w ++ token :: v) (node :: (ns ++ ms)) := by
  have hapart : kind ≠ .identifier ∧ kind ≠ .lparen := by
    revert member
    cases kind <;> simp [TokenKind.marks]
  have hnode : node.mention? = none := by
    revert hmark
    cases node <;> simp [Expr.mark?, Expr.mention?]
  exact (h.around (mark hkind hmark member) h' hkind hapart).front hnode

end Conserves

namespace Grammar

/-- The nodes of what a phrase comes to. -/
def Phrase.nodes : Phrase → List Expr
  | .summands es | .factors es | .arguments es => nodesOf es
  | .sum e | .product e | .unary e | .power e | .primary e => e.nodes

theorem Derives.conserves {b : Bool} {phrase : Phrase} (h : Derives b w phrase) :
    Conserves w phrase.nodes := by
  induction h with
  | summand _ ih | factor _ ih | argument _ ih => rwa [Phrase.nodes, Expr.nodesOf_singleton]
  | onlySummand _ ih | onlyFactor _ ih => rwa [Phrase.nodes, Expr.nodesOf_singleton] at ih
  | unsigned _ ih | base _ ih => exact ih
  | sum _ _ ih | product _ _ ih => exact ih.wrap rfl rfl
  | plus _ hkind _ ihFirst ihLast | times _ hkind _ ihFirst ihLast
  | arguments _ hkind _ ihFirst ihLast =>
    have hjoined := ihFirst.divided ihLast hkind (by decide) (by decide)
    simpa [Phrase.nodes, Expr.nodesOf_append, nodesOf] using hjoined
  | @minus _ _ _ sign es e _ hkind _ ihFirst ihLast
  | @divide _ _ _ sign es e _ hkind _ ihFirst ihLast =>
    rw [Phrase.nodes, Expr.nodesOf_append, Expr.nodesOf_singleton, Expr.nodes,
      Expr.nodesOf_singleton]
    exact ihFirst.around (.mark hkind rfl (by decide)) ihLast hkind (by decide)
  | modulo _ hkind _ ihFirst ihLast =>
    rw [Phrase.nodes, Expr.nodesOf_singleton, Expr.nodes, Expr.nodesOf_pair]
    exact ihFirst.operation ihLast hkind rfl (by decide)
  | power _ hkind _ ihBase ihExponent =>
    rw [Phrase.nodes, Expr.nodes, Expr.nodesOf_pair]
    exact ihBase.operation ihExponent hkind rfl (by decide)
  | negative hkind _ _ ih =>
    rw [Phrase.nodes, Expr.nodes, Expr.nodesOf_singleton]
    exact Conserves.nil.operation ih hkind rfl (by decide)
  | positive hkind _ _ ih =>
    exact Conserves.nil.divided ih hkind (by decide) (by decide)
  | number hkind hx => exact .number hkind hx
  | reference hkind => exact .reference hkind
  | parenthesis hopening _ hclosing ih => exact ih.enclosed hopening hclosing
  | call hname hopening _ hclosing ih => exact .call hname hopening ih hclosing
  | emptyCall hname hopening hclosing =>
    have hnone : Conserves [] (nodesOf []) := .nil
    exact .call hname hopening hnone hclosing

theorem Statement.conserves {e : Expr} (h : Statement w e) : Conserves w e.nodes := by
  cases h with
  | sum hsum => exact hsum.conserves
  | assignment htarget hkind hvalue =>
    rw [Expr.nodes]
    exact htarget.conserves.operation hvalue.conserves hkind rfl (by decide)

theorem Semicolons.conserves (h : Semicolons w) : Conserves w [] := by
  induction w with
  | nil => exact .nil
  | cons token rest ih =>
    obtain ⟨hkind, hrest⟩ := List.forall_mem_cons.mp h
    exact Conserves.nil.divided (ih hrest) hkind (by decide) (by decide)

/-- A semicolon meets a statement without making a call of it. -/
theorem Semicolons.seam (h : Semicolons w) : Seam w v ∧ Seam v w := by
  constructor
  · refine seam_of_last fun before hbefore => ?_
    rw [h before (List.mem_of_getLast? hbefore)]
    decide
  · refine seam_of_head fun next hnext => ?_
    rw [h next (List.mem_of_mem_head? hnext)]
    decide

theorem Statements.conserves {force : Bool} {es : List Expr} (h : Statements force w es) :
    Conserves w (nodesOf es) := by
  induction h with
  | one hfirst =>
    rw [Expr.nodesOf_singleton]
    exact hfirst.conserves
  | @more w u v e es hfirst hu _ hgap ih =>
    have hrest : Conserves (u ++ v) (nodesOf es) := hu.conserves.append ih hu.seam.1
    refine hfirst.conserves.append hrest ?_
    cases u with
    | nil =>
      obtain ⟨-, before, next, hbefore, hnext, -, -, hcall⟩ := hgap rfl
      intro last first hlast hfirst
      cases hbefore.symm.trans hlast
      cases hnext.symm.trans hfirst
      exact hcall
    | cons token rest =>
      refine seam_of_head fun next hnext => ?_
      cases hnext
      rw [hu token List.mem_cons_self]
      decide

theorem Program.conserves {force : Bool} {e : Expr} (h : Program force w e) :
    Conserves w e.nodes := by
  have around : ∀ {u w v ns}, Semicolons u → Conserves w ns → Semicolons v →
      Conserves (u ++ (w ++ v)) ns := by
    intro u w v ns hu hw hv
    have hrest : Conserves (w ++ v) (ns ++ []) := hw.append hv.conserves hv.seam.2
    rw [List.append_nil] at hrest
    exact hu.conserves.append hrest hu.seam.1
  cases h with
  | statement hu hw hv => exact around hu hw.conserves hv
  | block hu hw _ hv => exact around hu (hw.conserves.wrap rfl rfl) hv

end Grammar

theorem Token.mention?_eq_reference_iff {name : String} {next : Option Token} :
    token.mention? next = some (.reference name) ↔ token.kind = .identifier ∧ token.text = name ∧
      ∀ other, next = some other → other.kind ≠ .lparen := by
  unfold Token.mention?
  split
  next hkind => simp [hkind]
  next hkind => cases next <;> simp [hkind, ite_eq_iff, and_comm]
  next hnumber hword => exact iff_of_false (by simp) fun h => hword h.1

/-- Whether a name stands somewhere in a row of tokens as a word that is not called. -/
def IsReferred (tokens : List Token) (name : String) : Prop :=
  ∃ before token after, tokens = before ++ token :: after ∧ token.kind = .identifier ∧
    token.text = name ∧ ∀ next, after.head? = some next → next.kind ≠ .lparen

theorem reference_mem_mentions {name : String} {tokens : List Token} :
    .reference name ∈ mentions tokens ↔ IsReferred tokens name := by
  unfold IsReferred
  induction tokens with
  | nil => simp [mentions]
  | cons token rest ih =>
    rw [mentions, List.mem_append, Option.mem_toList, Token.mention?_eq_reference_iff, ih]
    constructor
    · rintro (h | ⟨before, other, after, rfl, h⟩)
      · exact ⟨[], token, rest, rfl, h⟩
      · exact ⟨token :: before, other, after, rfl, h⟩
    · rintro ⟨before, other, after, htokens, h⟩
      cases before with
      | nil =>
        cases htokens
        exact .inl h
      | cons first before =>
        cases htokens
        exact .inr ⟨before, other, after, rfl, h⟩

theorem Expr.reference_mem_mentions {name : String} {e : Expr} :
    .reference name ∈ e.nodes.filterMap mention? ↔ name ∈ e.variableNames := by
  simp only [variableNames, List.mem_filterMap]
  refine exists_congr fun node => and_congr_right fun _ => ?_
  cases node <;> simp [mention?, name?]

/-- The numerals and words of a text, each a number, a variable or a call, are those of its tree in
the same order, and every numeral has a value; a tree has a node for each sign, stroke, remainder,
power and equals sign. So its variables are the words that are not called, and they are listed
unless the tree has too many levels to walk through. -/
theorem conserved_of_parse {room : Room} {force : Bool} {text : String} {tree : Expr}
    (parsed : parse room force (some text) = .ok tree) :
    ∃ tokens, lex TokenRule.standard (some text) = .ok tokens ∧
      tree.nodes.filterMap Expr.mention? = mentions tokens ∧
      (∀ token ∈ tokens, token.kind = .number →
        ∃ x, Decimal.readNumeral false token.text.toList = some x) ∧
      (∀ kind ∈ TokenKind.marks,
        tree.nodes.countP (·.mark? = some kind) = tokens.countP (·.kind = kind)) ∧
      (∀ name, name ∈ tree.variableNames ↔ IsReferred tokens name) ∧
      (tree.height ≤ 985 → ∃ names, Calculator.listVariables tree = .ok names ∧
        ∀ name, name ∈ names ↔ IsReferred tokens name) ∧
      (985 < tree.height → Calculator.listVariables tree = .error .stackExhausted) := by
  obtain ⟨tokens, lexed⟩ := exists_lex_of_parse parsed
  have hkept := (program_of_parse lexed parsed).conserves
  have hnames : ∀ name, name ∈ tree.variableNames ↔ IsReferred tokens name := by
    intro name
    rw [← Expr.reference_mem_mentions, ← hkept.mentions, reference_mem_mentions]
  refine ⟨tokens, lexed, hkept.mentions.symm, fun _ => exists_value_of_lex lexed, hkept.marks,
    hnames, fun hheight => ?_, fun hheight => ?_⟩
  · refine ⟨Text.sortedNames tree.variableNames, if_pos (holds_standard.mpr hheight),
      fun name => ?_⟩
    rw [Text.mem_sortedNames, hnames]
  · exact if_neg fun hholds => absurd (holds_standard.mp hholds) (by omega)

theorem conserved_of_parse_shared :
    ∃ tree tokens, parse .standard false (some "x = -f(x, 2) % y / x ^ .5") = .ok tree ∧
      tree.nodes.filterMap Expr.mention? = mentions tokens ∧ IsReferred tokens "y" ∧
      ∃ names, Calculator.listVariables tree = .ok names ∧ "y" ∈ names ∧ "f" ∉ names := by
  obtain ⟨tree, parsed, hprobe⟩ := @exists_ok_of_any _ _
    (parse .standard false (some "x = -f(x, 2) % y / x ^ .5"))
    (fun tree => decide (tree.height ≤ 985) && tree.variableNames.contains "y" &&
      !tree.variableNames.contains "f") (by decide +kernel)
  obtain ⟨⟨hheight, hused⟩, hcalled⟩ : (tree.height ≤ 985 ∧ "y" ∈ tree.variableNames) ∧
      "f" ∉ tree.variableNames := by simpa using hprobe
  obtain ⟨tokens, -, hmentions, -, -, hnames, hlisted, -⟩ := conserved_of_parse parsed
  obtain ⟨names, hok, hmem⟩ := hlisted hheight
  refine ⟨tree, tokens, parsed, hmentions, (hnames "y").mp hused, names, hok, ?_, ?_⟩
  · rwa [hmem, ← hnames]
  · rwa [hmem, ← hnames]

/-- A name that is divided by itself again and again, with the remainders only. -/
def remaindersSource (times : Nat) : String :=
  String.ofList ('a' :: (List.replicate times ['%', 'a']).flatten)

/-- A chain of remainders is read in a loop, so the parser goes on where no pass over the tree can
follow. -/
theorem listVariables_remainders :
    ∃ tree, parse .standard false (some (remaindersSource 985)) = .ok tree ∧
      ¬ ∃ names, Calculator.listVariables tree = .ok names := by
  obtain ⟨tree, parsed, hheight⟩ := @exists_ok_of_any _ _
    (parse .standard false (some (remaindersSource 985))) (fun tree => decide (985 < tree.height))
    (by
      rw [remaindersSource, parse_ofList]
      decide +kernel)
  refine ⟨tree, parsed, fun ⟨names, hnames⟩ => ?_⟩
  have hexhausts := Calculator.exhausts_list.mpr (of_decide_eq_true hheight)
  rw [hnames] at hexhausts
  exact not_exhausts_ok _ hexhausts

end Formula
