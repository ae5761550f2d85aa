import Formula.Proofs.Expr.Legible
import Formula.Proofs.Parser.Conserved

namespace Formula

namespace Expr

/-- Whether a tree is a legible operand, or the assignment of one to a legible name. -/
def IsLegibleStatement (e : Expr) : Prop :=
  e.Everywhere IsLegible ∨ ∃ name value, e = .assignment (.variable name) value ∧
    Everywhere IsLegible (.variable name) ∧ value.Everywhere IsLegible

/-- Whether a tree is a legible statement, or a block of several. -/
def IsLegibleProgram (e : Expr) : Prop :=
  e.IsLegibleStatement ∨ ∃ statements, e = .block statements ∧ 2 ≤ statements.length ∧
    ∀ e ∈ statements, e.IsLegibleStatement

/-- Whether a text may stand behind a statement. -/
def EndsStatement (rest : List Char) : Prop :=
  ∀ c, rest.head? = some c → c = ';'

variable {e e' : Expr} {name : String} {value : Expr} {r r' : List Char}

theorem EndsStatement.endsOperand (h : EndsStatement r) : EndsOperand r := by
  intro c hc
  obtain rfl := h c hc
  decide

theorem endsOperand_equals (rest : List Char) : EndsOperand (' ' :: '=' :: ' ' :: rest) := by
  intro c hc
  cases hc
  decide

theorem letters_assignment (name : String) (value : Expr) (r : List Char) :
    (assignment (.variable name) value).letters ++ r =
      (Expr.variable name).letters ++ ' ' :: '=' :: ' ' :: (value.letters ++ r) := by
  rw [letters, letters, targetName]
  simp [Except.toOption]

theorem not_endsStatement_equals (rest : List Char) :
    ¬ EndsStatement (' ' :: '=' :: ' ' :: rest) := by
  intro h
  exact absurd (h ' ' rfl) (by decide)

theorem decodes_statement (h : e.IsLegibleStatement) :
    Decodes IsLegibleStatement EndsStatement e := by
  intro e' r r' h' hr hr' heq
  rcases h with h | ⟨name, value, rfl, hname, hvalue⟩
  · rcases h' with h' | ⟨name', value', rfl, hname', -⟩
    · exact decodes h e' r r' h' hr.endsOperand hr'.endsOperand heq
    · rw [letters_assignment] at heq
      obtain ⟨-, rfl⟩ := decodes h _ _ _ hname' hr.endsOperand (endsOperand_equals _) heq
      exact absurd hr (not_endsStatement_equals _)
  · rw [letters_assignment] at heq
    rcases h' with h' | ⟨name', value', rfl, hname', hvalue'⟩
    · obtain ⟨-, rfl⟩ := decodes hname e' _ r' h' (endsOperand_equals _) hr'.endsOperand heq
      exact absurd hr' (not_endsStatement_equals _)
    · rw [letters_assignment] at heq
      obtain ⟨hsame, hrest⟩ := decodes hname _ _ _ hname' (endsOperand_equals _)
        (endsOperand_equals _) heq
      obtain rfl := Expr.variable.inj hsame
      have hvalues : value.letters ++ r = value'.letters ++ r' := by simpa using hrest
      obtain ⟨rfl, rfl⟩ := decodes hvalue value' r r' hvalue' hr.endsOperand hr'.endsOperand hvalues
      exact ⟨rfl, rfl⟩

theorem endsStatement_nil : EndsStatement [] := by
  intro c hc
  cases hc

/-- A statement is not written like a block of several. -/
theorem letters_ne_block {statements : List Expr} (h : e.IsLegibleStatement)
    (hmany : 2 ≤ statements.length) (hall : ∀ e ∈ statements, e.IsLegibleStatement) :
    e.letters ≠ (block statements).letters := by
  intro heq
  match statements, hmany with
  | first :: second :: rest, _ =>
    -- the first statement of the block would be the whole text, but a semicolon follows it
    have hbehind : EndsStatement (behind ';' [] (second :: rest)) := by
      intro c hc
      cases hc
      rfl
    have hsplit : e.letters ++ [] = first.letters ++ behind ';' [] (second :: rest) := by
      rw [List.append_nil, heq, letters, row]
    obtain ⟨-, hnil⟩ := decodes_statement h first _ _ (hall first List.mem_cons_self)
      endsStatement_nil hbehind hsplit
    exact List.cons_ne_nil _ _ hnil.symm

theorem delimits_statements : Delimits EndsStatement ';' ([] ++ []) where
  marked more c hc := by
    cases hc
    rfl
  ended := endsStatement_nil
  apart h := by cases h

/-- Legible programs that are written the same are the same. -/
theorem eq_of_letters_eq (h : e.IsLegibleProgram) (h' : e'.IsLegibleProgram)
    (heq : e.letters = e'.letters) : e = e' := by
  rcases h with h | ⟨statements, rfl, hmany, hall⟩
  · rcases h' with h' | ⟨statements', rfl, hmany', hall'⟩
    · exact (decodes_statement h e' [] [] h' endsStatement_nil endsStatement_nil (by rw [heq])).1
    · exact absurd heq (letters_ne_block h hmany' hall')
  · rcases h' with h' | ⟨statements', rfl, hmany', hall'⟩
    · exact absurd heq.symm (letters_ne_block h' hmany hall)
    · have hempty : statements = [] ↔ statements' = [] := by
        rw [← List.length_eq_zero_iff, ← List.length_eq_zero_iff]
        omega
      have hrows : row ';' [] statements ++ [] = row ';' [] statements' ++ [] := by
        rw [letters, letters] at heq
        rw [heq]
      obtain ⟨rfl, -⟩ := row_inj delimits_statements delimits_statements
        (fun e member => decodes_statement (hall e member)) hall' hempty hrows
      rfl

end Expr

section Parsed

variable {room room' printing printing' : Room} {force force' : Bool} {source source' : String}
  {tree tree' : Expr} {tokens : List Token} {token : Token}

theorem exists_of_mem_mentions {mention : Mention} (h : mention ∈ mentions tokens) :
    ∃ token ∈ tokens, ∃ next, token.mention? next = some mention := by
  induction tokens with
  | nil => cases h
  | cons token rest ih =>
    rw [mentions, List.mem_append, Option.mem_toList] at h
    rcases h with h | h
    · exact ⟨token, List.mem_cons_self, _, h⟩
    · obtain ⟨other, member, hother⟩ := ih h
      exact ⟨other, List.mem_cons_of_mem token member, hother⟩

/-- Where the parts of a mention come from. -/
theorem cases_of_mention? {mention : Mention} {next : Option Token}
    (h : token.mention? next = some mention) :
    (∃ x, token.kind = .number ∧ Decimal.readNumeral false token.text.toList = some x ∧
      mention = .number (.float x)) ∨
    token.kind = .identifier ∧ (mention = .call token.text ∨ mention = .reference token.text) := by
  unfold Token.mention? at h
  split at h
  next hkind =>
    obtain ⟨x, hx, rfl⟩ := Option.map_eq_some_iff.mp h
    exact .inl ⟨x, hkind, hx, rfl⟩
  next hkind =>
    refine .inr ⟨hkind, ?_⟩
    split at h
    next => exact .inl (Option.some.inj h).symm
    next => exact .inr (Option.some.inj h).symm
  next => cases h

/-- Whether every numeral of a text denotes a finite float. -/
def HasFiniteNumerals (source : String) : Prop :=
  ∀ tokens, lex TokenRule.standard (some source) = .ok tokens → ∀ token ∈ tokens,
    token.kind = .number → ∀ x, Decimal.readNumeral false token.text.toList = some x →
      Binary.isFinite x = true

instance : DecidablePred HasFiniteNumerals := fun source =>
  decidable_of_iff ((lex TokenRule.standard (some source)).toOption.all (fun tokens =>
      tokens.all fun token => !decide (token.kind = .number) ||
        (Decimal.readNumeral false token.text.toList).all Binary.isFinite) = true) <| by
    unfold HasFiniteNumerals
    cases lex TokenRule.standard (some source) with
    | error error => simp [Except.toOption]
    | ok tokens => simp [Except.toOption, Option.all_eq_true, or_iff_not_imp_left]

/-- What a parsed tree speaks of is legible. -/
theorem isLegible_of_parse (parsed : parse room force (some source) = .ok tree)
    (finite : HasFiniteNumerals source) {node : Expr} (member : node ∈ tree.nodes)
    (hplain : node.IsPlain) : node.IsLegible := by
  obtain ⟨tokens, lexed⟩ := exists_lex_of_parse parsed
  have hmentions := (program_of_parse lexed parsed).conserves.mentions
  -- every number and every name of the tree stands for a token of the text
  have hcases : ∀ mention, node.mention? = some mention → ∃ token ∈ tokens,
      ∃ next, token.mention? next = some mention := by
    intro mention hmention
    refine exists_of_mem_mentions ?_
    rw [hmentions]
    exact List.mem_filterMap.mpr ⟨node, member, hmention⟩
  cases node with
  | number value =>
    obtain ⟨token, htoken, next, hmention⟩ := hcases _ rfl
    rcases cases_of_mention? hmention with ⟨x, hkind, hread, hvalue⟩ | ⟨-, hname | hname⟩
    · obtain rfl := Mention.number.inj hvalue
      exact ⟨.number x, rfl, finite tokens lexed token htoken hkind x hread,
        isNegative_of_readNumeral hread⟩
    · cases hname
    · cases hname
  | «variable» name =>
    obtain ⟨token, htoken, next, hmention⟩ := hcases _ rfl
    rcases cases_of_mention? hmention with ⟨x, -, -, hvalue⟩ | ⟨hkind, hname | hname⟩
    · cases hvalue
    · cases hname
    · obtain rfl := Mention.reference.inj hname
      exact ⟨_, rfl, TokenRule.matches_word_of_lex lexed htoken hkind⟩
  | call name arguments =>
    obtain ⟨token, htoken, next, hmention⟩ := hcases _ rfl
    rcases cases_of_mention? hmention with ⟨x, -, -, hvalue⟩ | ⟨hkind, hname | hname⟩
    · cases hvalue
    · obtain rfl := Mention.call.inj hname
      exact ⟨_, rfl, TokenRule.matches_word_of_lex lexed htoken hkind⟩
    · cases hname
  | operation operator operands => exact ⟨.symbol operator, rfl, _, hplain.1⟩
  | assignment | block | unknown => cases hplain

theorem isLegibleProgram_of_parse (parsed : parse room force (some source) = .ok tree)
    (finite : HasFiniteNumerals source) : tree.IsLegibleProgram := by
  have hnode := fun node => @isLegible_of_parse _ _ _ _ parsed finite node
  have hstatement : ∀ e : Expr, (∀ node ∈ e.nodes, node ∈ tree.nodes) → e.IsStatement →
      e.IsLegibleStatement := by
    intro e hnodes he
    rcases he with he | ⟨name, value, rfl, hvalue⟩
    · exact .inl fun node member => hnode node (hnodes node member) (he node member)
    · refine .inr ⟨name, value, rfl, fun node member => ?_, fun node member => ?_⟩
      · refine hnode node (hnodes node ?_) ?_
        · rw [Expr.nodes]
          exact List.mem_cons_of_mem _ (List.mem_append_left _ member)
        · obtain rfl : node = .variable name := by simpa [Expr.nodes] using member
          trivial
      · refine hnode node (hnodes node ?_) (hvalue node member)
        rw [Expr.nodes]
        exact List.mem_cons_of_mem _ (List.mem_append_right _ member)
  rcases isProgram_of_parse parsed with h | ⟨statements, rfl, hmany, hall⟩
  · exact .inl (hstatement tree (fun node member => member) h)
  · refine .inr ⟨statements, rfl, hmany, fun e member => hstatement e ?_ (hall e member)⟩
    intro node hmember
    rw [Expr.nodes]
    exact List.mem_cons_of_mem _ (Expr.mem_nodesOf.mpr ⟨e, member, hmember⟩)

/-- Two formulas whose numerals are finite have the same tree if their trees are written the same in
compact form. -/
theorem tree_eq_of_text_eq (parsed : parse room force (some source) = .ok tree)
    (parsed' : parse room' force' (some source') = .ok tree')
    (finite : HasFiniteNumerals source) (finite' : HasFiniteNumerals source') {written : String}
    (h : tree.text printing = .ok written) (h' : tree'.text printing' = .ok written) :
    tree = tree' := by
  refine Expr.eq_of_letters_eq (isLegibleProgram_of_parse parsed finite)
    (isLegibleProgram_of_parse parsed' finite') ?_
  rw [← Expr.toList_of_text h, Expr.toList_of_text h']

/-- Two spellings of an assignment and a call, one of them with stars for the power, a blank instead
of the semicolon and a long numeral. -/
theorem tree_eq_of_text_eq_respelled :
    ∃ tree tree', parse .standard false (some "x = -2 ^ 3; f(1e16, .5)") = .ok tree ∧
      parse .standard false (some "x=-(2)**3 f (10000000000000000, 5e-1);") = .ok tree' ∧
      tree.text .standard = .ok "x = -(^(2, 3)); f(1e+16, 0.5)" ∧ tree = tree' := by
  have hwritten {tree : Expr}
      (h : (tree.text .standard).toOption = some "x = -(^(2, 3)); f(1e+16, 0.5)") :
      tree.text .standard = .ok "x = -(^(2, 3)); f(1e+16, 0.5)" := by
    cases htext : tree.text .standard with
    | error fault => simp [htext, Except.toOption] at h
    | ok written => simpa [htext, Except.toOption] using h
  obtain ⟨tree, parsed, hprobe⟩ := @exists_ok_of_any _ _
    (parse .standard false (some "x = -2 ^ 3; f(1e16, .5)"))
    (fun tree => decide ((tree.text .standard).toOption = some "x = -(^(2, 3)); f(1e+16, 0.5)"))
    (by decide +kernel)
  obtain ⟨tree', parsed', hprobe'⟩ := @exists_ok_of_any _ _
    (parse .standard false (some "x=-(2)**3 f (10000000000000000, 5e-1);"))
    (fun tree => decide ((tree.text .standard).toOption = some "x = -(^(2, 3)); f(1e+16, 0.5)"))
    (by decide +kernel)
  have h := hwritten (of_decide_eq_true hprobe)
  have h' := hwritten (of_decide_eq_true hprobe')
  exact ⟨tree, tree', parsed, parsed', h,
    tree_eq_of_text_eq parsed parsed' (by decide +kernel) (by decide +kernel) h h'⟩

end Parsed

end Formula
