import Formula.Proofs.Eval.Chain
import Formula.Proofs.Parser.Grammatical
import Formula.Proofs.Token.Cut

namespace Formula

open Formula.Grammar TokenRule

/-- A text with parentheses around its characters from `i` up to `j`. -/
def Text.enclose (i j : Nat) (text : String) : String :=
  let chars := text.toList
  .ofList (chars.take i ++ '(' :: ((chars.take j).drop i ++ ')' :: chars.drop j))

/-- Parentheses have tokens of their own and shift those behind them. -/
theorem exists_tokens_parentheses {text : String} {before inner behind : List Char}
    {lead rest : List Token} (whole : String)
    (hbefore : tokensFrom standard text .start before = .ok [])
    (hinner : tokensFrom standard text (Text.Place.start.advance before) inner = .ok lead)
    (hbehind : tokensFrom standard text (Text.Place.start.advance (before ++ inner)) behind =
      .ok rest) :
    ∃ opening lead' closing rest', opening.kind = .lparen ∧ closing.kind = .rparen ∧
      List.Forall₂ (Token.Shifted 0 1) lead lead' ∧ List.Forall₂ (Token.Shifted 0 2) rest rest' ∧
      tokensFrom standard whole .start (before ++ '(' :: (inner ++ ')' :: behind)) =
        .ok (opening :: (lead' ++ closing :: rest')) := by
  let opened := Text.Place.start.advance before
  let closed := (opened.advance ['(']).advance inner
  have hinside : opened.position + 1 = (opened.advance ['(']).position + 0 := by
    rw [Text.Place.position_advance _ ['(']]
    rfl
  have houtside : (Text.Place.start.advance (before ++ inner)).position + 2 =
      (closed.advance [')']).position + 0 := by
    simp only [closed, opened, Text.Place.position_advance, List.length_append,
      List.length_singleton]
    omega
  obtain ⟨lead', hlead', hshifted⟩ := exists_shifted whole hinside hinner
  obtain ⟨rest', hrest', hshifted'⟩ := exists_shifted whole houtside hbehind
  refine ⟨⟨.lparen, "(", opened⟩, lead', ⟨.rparen, ")", closed⟩, rest', rfl, rfl, hshifted,
    hshifted', ?_⟩
  rw [tokensFrom_append (parts_lparen before), tokensFrom_whole _ hbefore, tokensFrom_lparen,
    tokensFrom_append (parts_rparen inner), hlead', tokensFrom_rparen, hrest']
  rfl

/-- A text may be enclosed where its tokens are divided. -/
theorem exists_tokens_enclose {i j : Nat} {text : String} {lead rest : List Token}
    (lexed : lex standard (some text) = .ok (lead ++ rest)) (hij : i ≤ j)
    (hlead : ∀ token ∈ lead, i ≤ token.position ∧ token.stop ≤ j)
    (hrest : ∀ token ∈ rest, j ≤ token.position) :
    ∃ opening lead' closing rest', opening.kind = .lparen ∧ closing.kind = .rparen ∧
      List.Forall₂ (Token.Shifted 0 1) lead lead' ∧ List.Forall₂ (Token.Shifted 0 2) rest rest' ∧
      lex standard (some (Text.enclose i j text)) =
        .ok (opening :: (lead' ++ closing :: rest')) := by
  have hstart : Text.Place.start.position = 0 := rfl
  have hwhole : tokensFrom standard text .start (text.toList.take j ++ text.toList.drop j) =
      .ok (lead ++ rest) := by
    rw [List.take_append_drop]
    exact lexed
  have hinto : text.toList.take i ++ (text.toList.take j).drop i = text.toList.take j := by
    rw [← Nat.min_eq_left hij, ← List.take_take, Nat.min_eq_left hij, List.take_append_drop]
  have hfirst := (tokensFrom_cut hwhole
    (fun token member => by
      have hwithin := (within_standard hwhole (List.mem_append_left rest member)).2
      have hstop := (hlead token member).2
      rw [List.take_append_drop] at hwithin
      rw [List.length_take]
      omega)
    (fun token member => by
      have hposition := hrest token member
      rw [List.length_take]
      omega))
  have hcut : tokensFrom standard text .start
      (text.toList.take i ++ (text.toList.take j).drop i) = .ok ([] ++ lead) := by
    rw [hinto]
    exact hfirst.1
  have hsecond := tokensFrom_cut hcut (by simp) fun token member => by
    have hposition := (hlead token member).1
    rw [List.length_take]
    omega
  rw [lex, Text.enclose, String.toList_ofList]
  exact exists_tokens_parentheses _ hsecond.1 hsecond.2 (by rw [hinto]; exact hfirst.2)

namespace Level

variable {level : Level} {b : Bool} {w : List Token} {e : Expr}

theorem derives_sum_of_whole (h : Derives b w (level.whole e)) : Derives b w (.sum e) := by
  cases level with
  | sum => exact h
  | product => exact .onlySummand (.summand h)

theorem derives_operand_of_primary (h : Derives b w (.primary e)) :
    Derives b w (level.operand e) := by
  cases level with
  | sum => exact .onlyFactor (.factor (.unsigned (.base h)))
  | product => exact .unsigned (.base h)

theorem height_tree_append {es : List Expr} (hsome : es ≠ []) (e : Expr) :
    (level.tree (es ++ [e])).height = max (Expr.heightOf es) e.height + 1 := by
  obtain ⟨first, rest, rfl⟩ := List.exists_cons_of_ne_nil hsome
  rw [← Expr.heightOf_append_singleton]
  cases rest <;> rfl

/-- Operands in whose place others make a tree that is at most one level higher. -/
structure Raises (level : Level) (es es' : List Expr) : Prop where
  hsome : es ≠ []
  hsome' : es' ≠ []
  operands : Expr.heightOf es' ≤ Expr.heightOf es + 1
  tree : (level.tree es').height ≤ (level.tree es).height + 1

namespace Raises

variable {es es' : List Expr}

theorem append (h : level.Raises es es') (e : Expr) : level.Raises (es ++ [e]) (es' ++ [e]) where
  hsome := by simp
  hsome' := by simp
  operands := by
    have hoperands := h.operands
    rw [Expr.heightOf_append_singleton, Expr.heightOf_append_singleton]
    omega
  tree := by
    have hoperands := h.operands
    rw [height_tree_append h.hsome, height_tree_append h.hsome']
    omega

theorem join (h : level.Raises es es') (link : Link) :
    level.Raises (level.join es link) (level.join es' link) := by
  cases level with
  | sum => exact h.append _
  | product =>
    simp only [Level.join, Parser.withFactor]
    split_ifs
    · exact h.append _
    · exact h.append _
    · -- the chains before a remainder are operands of its node
      have htree := h.tree
      rw [tree_product, tree_product] at htree
      refine ⟨by simp, by simp, ?_, ?_⟩
      · simp only [Expr.heightOf, Expr.height]
        omega
      · simp only [Level.tree, Expr.heightOf, Expr.height]
        omega

theorem foldl_join (h : level.Raises es es') (links : List Link) :
    level.Raises (links.foldl level.join es) (links.foldl level.join es') := by
  induction links generalizing es es' with
  | nil => exact h
  | cons link others ih => exact ih (h.join link)

end Raises

/-- A chain as the only operand of another one. -/
theorem raises_single {es : List Expr} (hsome : es ≠ []) : level.Raises es [level.tree es] where
  hsome := hsome
  hsome' := by simp
  operands := by
    match es with
    | [e] => simp [Level.tree, Expr.heightOf]
    | first :: second :: rest => simp [Level.tree, Expr.heightOf, Expr.height]
  tree := Nat.le_succ _

end Level

namespace Chain

variable {level : Level} {σ : Type}

theorem isPlain_operands {b : Bool} (chain : Chain level b) :
    chain.operands ≠ [] ∧ ∀ e ∈ chain.operands, e.Everywhere Expr.IsPlain := by
  have hhead : chain.head.Everywhere Expr.IsPlain := by
    have hplain := chain.derives.isPlain
    cases level <;> exact hplain
  exact Level.isPlain_foldl_join (by simp) (List.forall_mem_singleton.mpr hhead) chain.areLinks

/-- The tree of a chain with parentheses around its first links. -/
def enclosed (chain : Chain level false) (n : Nat) : Expr :=
  level.tree ((chain.links.drop n).foldl level.join [(chain.take n).tree])

theorem height_enclosed_le (chain : Chain level false) (n : Nat) :
    (chain.enclosed n).height ≤ chain.tree.height + 1 := by
  have hraises : level.Raises ((chain.links.drop n).foldl level.join (chain.take n).operands)
      ((chain.links.drop n).foldl level.join [(chain.take n).tree]) :=
    (Level.raises_single (chain.take n).isPlain_operands.1).foldl_join _
  rw [foldl_operands_take] at hraises
  exact hraises.tree

theorem areLinks_drop {b : Bool} (chain : Chain level b) (n : Nat) :
    ∀ link ∈ chain.links.drop n, level.IsLink link :=
  fun link member => chain.areLinks link (List.mem_of_mem_drop member)

theorem derives_enclosed (chain : Chain level false) (n : Nat) {opening closing : Token}
    {lead rest : List Token} (hopen : opening.kind = .lparen) (hclose : closing.kind = .rparen)
    (hlead : List.Forall₂ (Token.Shifted 0 1) (chain.take n).tokens lead)
    (hrest : List.Forall₂ (Token.Shifted 0 2) (chain.behind n) rest) :
    Derives false (opening :: (lead ++ closing :: rest)) (.sum (chain.enclosed n)) := by
  have hinner : Derives false lead (.sum (chain.take n).tree) :=
    Level.derives_sum_of_whole ((chain.take n).derives_tree.shifted hlead)
  have hoperand : Derives false (opening :: (lead ++ [closing]))
      (level.operand (chain.take n).tree) :=
    Level.derives_operand_of_primary (.parenthesis hopen hinner hclose)
  have hchain := Level.derives_foldl_join (Level.derives_operands hoperand)
    (chain.areLinks_drop n) hrest
  have htokens : opening :: (lead ++ closing :: rest) =
      opening :: (lead ++ [closing]) ++ rest := by simp
  rw [htokens]
  exact Level.derives_sum_of_whole (Level.derives_whole hchain)

/-- Both trees are the same operand first, and then the same links one by one. -/
theorem eval_enclosed {env : Environment σ}
    (supplies : env.Supplies Value.IsFloat fun _ => True) (chain : Chain level false) (n : Nat) :
    Run.Same Value.IsFloat (eval env .unlimited (chain.enclosed n))
      (eval env .unlimited chain.tree) := by
  obtain ⟨hsome, hplain⟩ := (chain.take n).isPlain_operands
  have hgroup : ∀ e ∈ [(chain.take n).tree], e.Everywhere Expr.IsPlain :=
    List.forall_mem_singleton.mpr (Level.isPlain_tree _ hsome hplain)
  have hflat := eval_foldl_join supplies (chain.areLinks_drop n) hsome hplain
  have hnested := eval_foldl_join supplies (chain.areLinks_drop n) (by simp) hgroup
  rw [foldl_operands_take] at hflat
  exact hnested.trans hflat.symm

end Chain

variable {force : Bool} {text : String} {level : Level}

theorem program_of_derives {w : List Token} {e : Expr} (h : Derives false w (.sum e)) :
    Grammar.Program force w e := by
  have hnone : Semicolons [] := by simp [Semicolons]
  simpa using Grammar.Program.statement hnone (.sum h) hnone

/-- Flattening is invisible. Every sum and every product is a chain. Parentheses around the leading
part of a chain, up to before one of its operators, give it another tree; but where all that is
supplied is a float or a fault, both trees have the same value or fault. They also leave the same
variables and the same state of the caller's functions and handler, whatever these record of their
calls. The other tree is at most one level higher, so room for one more level is enough for it. -/
theorem evaluate_enclose {tokens : List Token}
    (lexed : lex TokenRule.standard (some text) = .ok tokens) (level : Level) (force : Bool) :
    (∀ tree, Derives false tokens (level.whole tree) →
      ∃ chain : Chain level false, chain.tokens = tokens ∧ chain.tree = tree) ∧
    ∀ chain : Chain level false, chain.tokens = tokens → ∀ n i j,
      (∀ token ∈ (chain.take n).tokens, i ≤ token.position ∧ token.stop ≤ j) →
      (∀ token ∈ chain.behind n, j ≤ token.position) →
      parse .unlimited force (some text) = .ok chain.tree ∧
      parse .unlimited force (some (Text.enclose i j text)) = .ok (chain.enclosed n) ∧
      ∀ {σ : Type} (env : Environment σ), env.Supplies Value.IsFloat (fun _ => True) →
        ∀ room, room.holds (price.evaluation * (chain.tree.height + 1)) →
          ∀ frame, frame.store.All Value.IsFloat →
            (evaluate env room (chain.enclosed n)).run frame =
              (evaluate env room chain.tree).run frame := by
  refine ⟨fun tree h => ?_, ?_⟩
  · have hchain := h.isChain
    cases level <;> exact hchain
  rintro chain rfl n i j hlead hbehind
  obtain ⟨first, others, htokens, -⟩ := (chain.take n).derives_tree.starts
  have hij : i ≤ j := by
    have hfirst := hlead first (by simp [htokens])
    have hstop : first.position ≤ first.stop := Nat.le_add_right _ _
    omega
  have hdivided : lex standard (some text) = .ok ((chain.take n).tokens ++ chain.behind n) := by
    rw [chain.tokens_take_append_behind, lexed]
  obtain ⟨opening, lead, closing, rest, hopen, hclose, hleads, hrests, hlexed⟩ :=
    exists_tokens_enclose hdivided hij hlead hbehind
  refine ⟨?_, ?_, fun env supplies room hroom frame hframe => ?_⟩
  · exact parse_of_program lexed
      (program_of_derives (Level.derives_sum_of_whole chain.derives_tree))
  · exact parse_of_program hlexed
      (program_of_derives (chain.derives_enclosed n hopen hclose hleads hrests))
  · have fits : chain.tree.Fits room :=
      Room.holds_mono hroom (Nat.mul_le_mul_left _ (Nat.le_succ _))
    have fits' : (chain.enclosed n).Fits room :=
      Room.holds_mono hroom (Nat.mul_le_mul_left _ (chain.height_enclosed_le n))
    rw [evaluate, evaluate, eval_of_fits fits, eval_of_fits fits', Effect.run_boundDepth,
      Effect.run_boundDepth, chain.eval_enclosed supplies n frame hframe]

/-- Everything that is called enters its name into a journal. -/
def journalEnvironment : Environment (List String) where
  overrides := ∅
  functions name :=
    if name = "note" then
      some (.function fun arguments => do
        modify (name :: ·)
        return arguments.headD (.float Binary.one))
    else none
  missing name := do
    modify (name :: ·)
    return .float Binary.one

theorem journalEnvironment_supplies :
    journalEnvironment.Supplies Value.IsFloat fun _ => True where
  overrides := Store.all_empty
  functions name callee found arguments floats host := by
    unfold journalEnvironment at found
    dsimp only at found
    split at found
    next =>
      cases found
      cases arguments with
      | nil => trivial
      | cons first rest => exact floats first List.mem_cons_self
    next => cases found
  missing name host := trivial

def quotientSource : String := " x / rate % y * note(x)"

/-- A token in the first line of a text. -/
def lineToken (kind : TokenKind) (text : String) (position : Nat) : Token :=
  ⟨kind, text, ⟨position, 1, position + 1⟩⟩

def quotientChain : Chain .product false where
  first := [lineToken .identifier "x" 1]
  head := .variable "x"
  derives := .unsigned (.base (.reference rfl))
  links :=
    [⟨lineToken .divide "/" 3, [lineToken .identifier "rate" 5], .variable "rate"⟩,
      ⟨lineToken .modulo "%" 10, [lineToken .identifier "y" 12], .variable "y"⟩,
      ⟨lineToken .multiply "*" 14,
        [lineToken .identifier "note" 16, lineToken .lparen "(" 20, lineToken .identifier "x" 21,
          lineToken .rparen ")" 22],
        .call "note" [.variable "x"]⟩]
  areLinks := by
    have hword : ∀ text position, Derives true [lineToken .identifier text position]
        (Level.product.operand (.variable text)) :=
      fun text position => .unsigned (.base (.reference rfl))
    have hargument : Derives false [lineToken .identifier "x" 21] (.arguments [.variable "x"]) :=
      .argument (.onlySummand (.summand (.onlyFactor (.factor (.unsigned (.base
        (.reference rfl)))))))
    simp only [List.forall_mem_cons]
    exact ⟨⟨by decide, hword _ _⟩, ⟨by decide, hword _ _⟩,
      ⟨by decide, .unsigned (.base (.call (w := [_]) rfl rfl hargument rfl))⟩, by simp⟩

theorem evaluate_enclose_quotient :
    lex TokenRule.standard (some quotientSource) = .ok quotientChain.tokens ∧
      parse .unlimited false (some "( x / rate % y )* note(x)") = .ok (quotientChain.enclosed 2) ∧
      journalEnvironment.Supplies Value.IsFloat (fun _ => True) ∧
      (evaluate journalEnvironment .standard (quotientChain.enclosed 2)).run ⟨∅, []⟩ =
        (evaluate journalEnvironment .standard quotientChain.tree).run ⟨∅, []⟩ ∧
      ((evaluate journalEnvironment .standard quotientChain.tree).run ⟨∅, []⟩).2.host =
        ["note", "x", "y", "rate", "x"] := by
  have lexed : lex TokenRule.standard (some quotientSource) = .ok quotientChain.tokens := by
    decide +kernel
  have henclose : Text.enclose 0 14 quotientSource = "( x / rate % y )* note(x)" := by
    decide +kernel
  obtain ⟨-, hchains⟩ := evaluate_enclose lexed .product false
  obtain ⟨-, parsed, hsame⟩ := hchains quotientChain rfl 2 0 14 (by decide +kernel)
    (by decide +kernel)
  rw [henclose] at parsed
  exact ⟨lexed, parsed, journalEnvironment_supplies,
    hsame journalEnvironment journalEnvironment_supplies .standard (by decide +kernel) ⟨∅, []⟩
      Store.all_empty,
    by decide +kernel⟩

end Formula
