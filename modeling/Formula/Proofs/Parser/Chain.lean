import Formula.Proofs.Parser.Phrase
import Formula.Proofs.Token.Seams

namespace Formula

open Formula.Parser Formula.Grammar

section Shifted

variable {b : Bool} {n n' : Nat} {v w : List Token} {phrase : Phrase}

theorem Token.Shifted.touches_iff {token token' next next' : Token}
    (h : token.Shifted n n' token') (hnext : next.Shifted n n' next') :
    Touches token next ↔ Touches token' next' := by
  have hposition := h.position
  have hposition' := hnext.position
  unfold Touches Token.stop
  rw [h.text]
  omega

theorem exists_shifted_append {u : List Token}
    (h : List.Forall₂ (Token.Shifted n n') (v ++ w) u) :
    ∃ v' w', u = v' ++ w' ∧ List.Forall₂ (Token.Shifted n n') v v' ∧
      List.Forall₂ (Token.Shifted n n') w w' := by
  have htake := List.forall₂_take v.length h
  have hdrop := List.forall₂_drop v.length h
  rw [List.take_left] at htake
  rw [List.drop_left] at hdrop
  exact ⟨_, _, (List.take_append_drop _ _).symm, htake, hdrop⟩

theorem exists_shifted_around {u : List Token} {token : Token}
    (h : List.Forall₂ (Token.Shifted n n') (v ++ token :: w) u) :
    ∃ v' token' w', u = v' ++ token' :: w' ∧ List.Forall₂ (Token.Shifted n n') v v' ∧
      token.kind = token'.kind ∧ List.Forall₂ (Token.Shifted n n') w w' := by
  obtain ⟨v', rest, rfl, hv, hrest⟩ := exists_shifted_append h
  obtain ⟨token', w', htoken, hw, rfl⟩ := List.forall₂_cons_left_iff.mp hrest
  exact ⟨v', token', w', rfl, hv, htoken.kind, hw⟩

theorem exists_shifted_head? {token : Token} (h : List.Forall₂ (Token.Shifted n n') w v)
    (htoken : w.head? = some token) :
    ∃ token', v.head? = some token' ∧ token.Shifted n n' token' := by
  cases h with
  | nil => cases htoken
  | cons hfirst _ =>
    cases htoken
    exact ⟨_, rfl, hfirst⟩

theorem touches_head_shifted {sign sign' : Token} (hsign : sign.Shifted n n' sign')
    (hw : List.Forall₂ (Token.Shifted n n') w v)
    (h : b = true → ∃ next, w.head? = some next ∧ Touches sign next) :
    b = true → ∃ next, v.head? = some next ∧ Touches sign' next := by
  intro hb
  obtain ⟨next, hnext, htouches⟩ := h hb
  obtain ⟨next', hnext', hshifted⟩ := exists_shifted_head? hw hnext
  exact ⟨next', hnext', (hsign.touches_iff hshifted).mp htouches⟩

/-- What a phrase means does not depend on where it stands. -/
theorem Grammar.Derives.shifted (h : Derives b w phrase)
    (hw : List.Forall₂ (Token.Shifted n n') w v) : Derives b v phrase := by
  induction h generalizing v with
  | summand _ ih => exact .summand (ih hw)
  | onlySummand _ ih => exact .onlySummand (ih hw)
  | sum _ hlength ih => exact .sum (ih hw) hlength
  | factor _ ih => exact .factor (ih hw)
  | onlyFactor _ ih => exact .onlyFactor (ih hw)
  | product _ hlength ih => exact .product (ih hw) hlength
  | unsigned _ ih => exact .unsigned (ih hw)
  | base _ ih => exact .base (ih hw)
  | argument _ ih => exact .argument (ih hw)
  | plus _ hkind _ ihFirst ihLast =>
    obtain ⟨_, _, _, rfl, hfirst, hsame, hlast⟩ := exists_shifted_around hw
    exact .plus (ihFirst hfirst) (hsame ▸ hkind) (ihLast hlast)
  | minus _ hkind _ ihFirst ihLast =>
    obtain ⟨_, _, _, rfl, hfirst, hsame, hlast⟩ := exists_shifted_around hw
    exact .minus (ihFirst hfirst) (hsame ▸ hkind) (ihLast hlast)
  | times _ hkind _ ihFirst ihLast =>
    obtain ⟨_, _, _, rfl, hfirst, hsame, hlast⟩ := exists_shifted_around hw
    exact .times (ihFirst hfirst) (hsame ▸ hkind) (ihLast hlast)
  | divide _ hkind _ ihFirst ihLast =>
    obtain ⟨_, _, _, rfl, hfirst, hsame, hlast⟩ := exists_shifted_around hw
    exact .divide (ihFirst hfirst) (hsame ▸ hkind) (ihLast hlast)
  | modulo _ hkind _ ihFirst ihLast =>
    obtain ⟨_, _, _, rfl, hfirst, hsame, hlast⟩ := exists_shifted_around hw
    exact .modulo (ihFirst hfirst) (hsame ▸ hkind) (ihLast hlast)
  | power _ hkind _ ihFirst ihLast =>
    obtain ⟨_, _, _, rfl, hfirst, hsame, hlast⟩ := exists_shifted_around hw
    exact .power (ihFirst hfirst) (hsame ▸ hkind) (ihLast hlast)
  | arguments _ hkind _ ihFirst ihLast =>
    obtain ⟨_, _, _, rfl, hfirst, hsame, hlast⟩ := exists_shifted_around hw
    exact .arguments (ihFirst hfirst) (hsame ▸ hkind) (ihLast hlast)
  | negative hkind htouches _ ih =>
    obtain ⟨sign', w', hsign, hrest, rfl⟩ := List.forall₂_cons_left_iff.mp hw
    exact .negative (hsign.kind ▸ hkind) (touches_head_shifted hsign hrest htouches) (ih hrest)
  | positive hkind htouches _ ih =>
    obtain ⟨sign', w', hsign, hrest, rfl⟩ := List.forall₂_cons_left_iff.mp hw
    exact .positive (hsign.kind ▸ hkind) (touches_head_shifted hsign hrest htouches) (ih hrest)
  | number hkind hx =>
    obtain ⟨token', _, htoken, hnil, rfl⟩ := List.forall₂_cons_left_iff.mp hw
    cases hnil
    exact .number (htoken.kind ▸ hkind) (htoken.text ▸ hx)
  | reference hkind =>
    obtain ⟨token', _, htoken, hnil, rfl⟩ := List.forall₂_cons_left_iff.mp hw
    cases hnil
    rw [htoken.text]
    exact .reference (htoken.kind ▸ hkind)
  | parenthesis hopen _ hclose ih =>
    obtain ⟨opening', _, hopening, hrest, rfl⟩ := List.forall₂_cons_left_iff.mp hw
    obtain ⟨_, _, _, rfl, hinner, hclosing, hnil⟩ := exists_shifted_around hrest
    cases hnil
    exact .parenthesis (hopening.kind ▸ hopen) (ih hinner) (hclosing ▸ hclose)
  | call hname hopen _ hclose ih =>
    obtain ⟨name', _, hword, hbehind, rfl⟩ := List.forall₂_cons_left_iff.mp hw
    obtain ⟨opening', _, hopening, hrest, rfl⟩ := List.forall₂_cons_left_iff.mp hbehind
    obtain ⟨_, _, _, rfl, hinner, hclosing, hnil⟩ := exists_shifted_around hrest
    cases hnil
    rw [hword.text]
    exact .call (hword.kind ▸ hname) (hopening.kind ▸ hopen) (ih hinner) (hclosing ▸ hclose)
  | emptyCall hname hopen hclose =>
    obtain ⟨name', _, hword, hbehind, rfl⟩ := List.forall₂_cons_left_iff.mp hw
    obtain ⟨opening', _, hopening, hrest, rfl⟩ := List.forall₂_cons_left_iff.mp hbehind
    obtain ⟨closing', _, hclosing, hnil, rfl⟩ := List.forall₂_cons_left_iff.mp hrest
    cases hnil
    rw [hword.text]
    exact .emptyCall (hword.kind ▸ hname) (hopening.kind ▸ hopen) (hclosing.kind ▸ hclose)

end Shifted

/-- An operator of a chain with the operand behind it. -/
structure Link where
  operator : Token
  tokens : List Token
  operand : Expr

/-- All tokens of a link. -/
def Link.run (link : Link) : List Token :=
  link.operator :: link.tokens

/-- The levels of precedence whose operators make chains. -/
inductive Level where
  | sum
  | product

namespace Level

def operators : Level → List TokenKind
  | sum => [.plus, .minus]
  | product => [.multiply, .divide, .modulo]

/-- The phrase that is an operand of a chain. -/
def operand : Level → Expr → Phrase
  | sum => .product
  | product => .unary

/-- The phrase that is the beginning of a chain. -/
def operands : Level → List Expr → Phrase
  | sum => .summands
  | product => .factors

/-- The phrase that is a whole chain. -/
def whole : Level → Expr → Phrase
  | sum => .sum
  | product => .product

/-- The operator of the node that a chain becomes. -/
def operator : Level → Operator
  | sum => .add
  | product => .multiply

/-- The tree of a chain, which is one node unless there is only one operand. -/
def tree (level : Level) : List Expr → Expr
  | [e] => e
  | es => .operation level.operator es

/-- The operands of a chain with one more link. -/
def join : Level → List Expr → Link → List Expr
  | sum, es, link => es ++ [summand link.operator.kind link.operand]
  | product, es, link => withFactor es link.operator.kind link.operand

structure IsLink (level : Level) (link : Link) : Prop where
  operator : link.operator.kind ∈ level.operators
  operand : Derives true link.tokens (level.operand link.operand)

variable {level : Level} {b : Bool} {e : Expr} {es : List Expr} {u v w : List Token} {link : Link}

theorem tree_sum (es : List Expr) : Level.sum.tree es = sumOf es := by
  match es with
  | [] | [_] | _ :: _ :: _ => rfl

theorem tree_product (es : List Expr) : Level.product.tree es = productOf es := by
  match es with
  | [] | [_] | _ :: _ :: _ => rfl

theorem derives_operands (h : Derives b w (level.operand e)) :
    Derives b w (level.operands [e]) := by
  cases level with
  | sum => exact .summand h
  | product => exact .factor h

theorem derives_whole (h : Derives b w (level.operands es)) :
    Derives b w (level.whole (level.tree es)) := by
  cases level with
  | sum =>
    rw [tree_sum]
    exact derives_sumOf h
  | product =>
    rw [tree_product]
    exact derives_productOf h

theorem derives_join (h : Derives b w (level.operands es)) (hlink : level.IsLink link) :
    Derives b (w ++ link.run) (level.operands (level.join es link)) := by
  obtain ⟨hkind, hoperand⟩ := hlink
  cases level with
  | sum => exact derives_summand (by simpa [operators] using hkind) h hoperand
  | product => exact derives_factor (by simpa [operators] using hkind) h hoperand

/-- Links join a chain wherever they stand. -/
theorem derives_foldl_join {n n' : Nat} {links : List Link}
    (h : Derives b w (level.operands es)) (hlinks : ∀ link ∈ links, level.IsLink link)
    (hv : List.Forall₂ (Token.Shifted n n') (links.flatMap Link.run) v) :
    Derives b (w ++ v) (level.operands (links.foldl level.join es)) := by
  induction links generalizing w v es with
  | nil =>
    cases hv
    rwa [List.append_nil]
  | cons link others ih =>
    obtain ⟨hlink, hothers⟩ := List.forall_mem_cons.mp hlinks
    obtain ⟨run, rest, rfl, hrun, hrest⟩ := exists_shifted_append hv
    obtain ⟨operator', tokens', hoperator, htokens, rfl⟩ := List.forall₂_cons_left_iff.mp hrun
    have hmoved : level.IsLink ⟨operator', tokens', link.operand⟩ :=
      ⟨hoperator.kind ▸ hlink.operator, hlink.operand.shifted htokens⟩
    have hjoin : level.join es ⟨operator', tokens', link.operand⟩ = level.join es link := by
      cases level <;> simp only [join, hoperator.kind]
    have hderives := ih (derives_join h hmoved) hothers hrest
    rwa [hjoin, List.append_assoc] at hderives

end Level

/-- A chain: its first operand and the links behind it. `b` tells whether it stands directly behind
an operator. -/
structure Chain (level : Level) (b : Bool) where
  first : List Token
  head : Expr
  derives : Derives b first (level.operand head)
  links : List Link
  areLinks : ∀ link ∈ links, level.IsLink link

namespace Chain

variable {level : Level} {b : Bool}

def tokens (chain : Chain level b) : List Token :=
  chain.first ++ chain.links.flatMap Link.run

def operands (chain : Chain level b) : List Expr :=
  chain.links.foldl level.join [chain.head]

def tree (chain : Chain level b) : Expr :=
  level.tree chain.operands

/-- The leading part of a chain, with so many links. -/
def take (chain : Chain level b) (n : Nat) : Chain level b :=
  { chain with
    links := chain.links.take n
    areLinks := fun link member => chain.areLinks link (List.mem_of_mem_take member) }

/-- What stands behind a leading part. -/
def behind (chain : Chain level b) (n : Nat) : List Token :=
  (chain.links.drop n).flatMap Link.run

theorem tokens_take_append_behind (chain : Chain level b) (n : Nat) :
    (chain.take n).tokens ++ chain.behind n = chain.tokens := by
  rw [tokens, tokens, behind, take, List.append_assoc, ← List.flatMap_append,
    List.take_append_drop]

theorem foldl_operands_take (chain : Chain level b) (n : Nat) :
    (chain.links.drop n).foldl level.join (chain.take n).operands = chain.operands := by
  rw [operands, operands, take, ← List.foldl_append, List.take_append_drop]

theorem derives_tree (chain : Chain level b) :
    Derives b chain.tokens (level.whole chain.tree) := by
  have hself : ∀ tokens : List Token, List.Forall₂ (Token.Shifted 0 0) tokens tokens :=
    fun tokens => List.forall₂_same.mpr fun _ _ => ⟨rfl, rfl, rfl⟩
  exact Level.derives_whole (Level.derives_foldl_join (Level.derives_operands chain.derives)
    chain.areLinks (hself _))

/-- One more link makes a longer chain. -/
theorem exists_joined (chain : Chain level b) {operator : Token} {kind : TokenKind}
    {w : List Token} {e : Expr} (hoperand : Derives true w (level.operand e))
    (hkind : operator.kind = kind) (joins : kind ∈ level.operators) :
    ∃ longer : Chain level b, longer.tokens = chain.tokens ++ operator :: w ∧
      longer.operands = level.join chain.operands ⟨operator, w, e⟩ := by
  have areLinks : ∀ link ∈ chain.links ++ [⟨operator, w, e⟩], level.IsLink link :=
    List.forall_mem_append.mpr
      ⟨chain.areLinks, List.forall_mem_singleton.mpr ⟨hkind ▸ joins, hoperand⟩⟩
  exact ⟨{ chain with links := chain.links ++ [⟨operator, w, e⟩], areLinks },
    by simp [tokens, Link.run], by simp [operands]⟩

end Chain

/-- What a phrase is as a chain, if it is one. -/
def Grammar.Phrase.IsChain (b : Bool) (w : List Token) : Phrase → Prop
  | .summands es => ∃ chain : Chain .sum b, chain.tokens = w ∧ chain.operands = es
  | .sum e => ∃ chain : Chain .sum b, chain.tokens = w ∧ chain.tree = e
  | .factors es => ∃ chain : Chain .product b, chain.tokens = w ∧ chain.operands = es
  | .product e => ∃ chain : Chain .product b, chain.tokens = w ∧ chain.tree = e
  | _ => True

/-- Every sum and every product is a chain. -/
theorem Grammar.Derives.isChain {b : Bool} {w : List Token} {phrase : Phrase}
    (h : Derives b w phrase) : phrase.IsChain b w := by
  induction h with
  | summand hoperand _ =>
    exact ⟨⟨_, _, hoperand, [], by simp⟩, List.append_nil _, rfl⟩
  | factor hoperand _ =>
    exact ⟨⟨_, _, hoperand, [], by simp⟩, List.append_nil _, rfl⟩
  | plus _ hkind hoperand ih _ | minus _ hkind hoperand ih _ =>
    obtain ⟨chain, rfl, rfl⟩ := ih
    obtain ⟨longer, htokens, hoperands⟩ := chain.exists_joined hoperand hkind (by decide)
    exact ⟨longer, htokens, by simp [hoperands, Level.join, Parser.summand, hkind]⟩
  | times _ hkind hoperand ih _ | divide _ hkind hoperand ih _ =>
    obtain ⟨chain, rfl, rfl⟩ := ih
    obtain ⟨longer, htokens, hoperands⟩ := chain.exists_joined hoperand hkind (by decide)
    exact ⟨longer, htokens, by simp [hoperands, Level.join, withFactor, hkind]⟩
  | modulo _ hkind hoperand ih _ =>
    obtain ⟨chain, rfl, rfl⟩ := ih
    obtain ⟨longer, htokens, hoperands⟩ := chain.exists_joined hoperand hkind (by decide)
    refine ⟨longer, htokens, ?_⟩
    simp [hoperands, Level.join, withFactor, hkind, Chain.tree, Level.tree_product]
  | onlySummand _ ih =>
    obtain ⟨chain, htokens, hes⟩ := ih
    exact ⟨chain, htokens, by rw [Chain.tree, hes, Level.tree]⟩
  | onlyFactor _ ih =>
    obtain ⟨chain, htokens, hes⟩ := ih
    exact ⟨chain, htokens, by rw [Chain.tree, hes, Level.tree]⟩
  | sum _ hlength ih =>
    obtain ⟨chain, htokens, hes⟩ := ih
    exact ⟨chain, htokens, by rw [Chain.tree, hes, Level.tree_sum, sumOf_of_two_le hlength]⟩
  | product _ hlength ih =>
    obtain ⟨chain, htokens, hes⟩ := ih
    exact ⟨chain, htokens, by
      rw [Chain.tree, hes, Level.tree_product, productOf_of_two_le hlength]⟩
  | _ => trivial

end Formula
