import Formula.Proofs.Expr.Statements
import Formula.Proofs.Parser.Alongside
import Formula.Proofs.Parser.Grammatical
import Formula.Proofs.Parser.Shape

namespace Formula

open Formula.Expr
open Formula.Parser (Remainder)

namespace Expr

variable {e : Expr} {es : List Expr}

theorem IsStatement.kind_ne_block (h : e.IsStatement) : e.kind ≠ .block := by
  rcases h with hplain | ⟨name, value, rfl, -⟩
  · cases e with
    | block statements => exact (everywhere_block.mp hplain).1.elim
    | _ => nofun
  · nofun

theorem Comprises.statements_eq (h : e.Comprises es) (hes : ∀ e ∈ es, e.IsStatement) :
    e.statements = es := by
  rcases h with rfl | ⟨rfl, -⟩
  · exact statements_of_kind_ne_block (hes e List.mem_cons_self).kind_ne_block
  · rfl

theorem comprises_ofStatements (h : es ≠ []) : (ofStatements es).Comprises es := by
  match es, h with
  | [statement], _ => exact .inl rfl
  | first :: second :: rest, _ => exact .inr ⟨rfl, by simp⟩

end Expr

variable {room : Room} {force : Bool} {text : String} {tokens : List Token} {e : Expr}
  {es : List Expr}

theorem comprises_statements_of_parse (lexed : lex TokenRule.standard (some text) = .ok tokens)
    (parsed : parse room force (some text) = .ok e) :
    Parser.statements room force true (.ofTokens text tokens) = .ok e.statements ∧
      e.Comprises e.statements := by
  obtain ⟨es, hes, hcomprises⟩ :=
    Parser.program_eq_ok_iff.mp ((parse_eq_ok_iff_of_lex lexed).mp parsed)
  rw [hcomprises.statements_eq (Parser.readsStatements_of_statements hes).areStatements]
  exact ⟨hes, hcomprises⟩

/-- The tokens of a text that is parsed are its statements. -/
theorem remainder_of_parse (lexed : lex TokenRule.standard (some text) = .ok tokens)
    (parsed : parse room force (some text) = .ok e) : Remainder force true e.statements tokens := by
  obtain ⟨hes, -⟩ := comprises_statements_of_parse lexed parsed
  exact Parser.remainder_of_reads (Parser.readsStatements_of_statements hes) rfl fun _ =>
    TokenRule.kind_ne_eof_of_lex lexed

/-- A text whose tokens are some statements is parsed to these. -/
theorem exists_parse_of_remainder (lexed : lex TokenRule.standard (some text) = .ok tokens)
    (h : Remainder force true es tokens) (hsome : es ≠ []) :
    ∃ e, parse .unlimited force (some text) = .ok e ∧ e.statements = es := by
  have hread : Parser.statements .unlimited force true (.ofTokens text tokens) = .ok es :=
    Parser.statements_of_remainder rfl rfl h
  have hcomprises := comprises_ofStatements hsome
  have hprogram := Parser.program_eq_ok_iff.mpr ⟨es, hread, hcomprises⟩
  exact ⟨ofStatements es, (parse_eq_ok_iff_of_lex lexed).mpr hprogram,
    hcomprises.statements_eq (Parser.readsStatements_of_statements hread).areStatements⟩

end Formula
