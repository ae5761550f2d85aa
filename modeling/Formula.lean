import Formula.Expr.Equality
import Formula.Main
import Formula.Pattern.Reader
import Formula.Session
import Formula.Proofs.Effect
import Formula.Proofs.Expr.Nodes
import Formula.Proofs.Program.Agreement
import Formula.Proofs.Fold.Constant
import Formula.Proofs.Fold.Regroup
import Formula.Proofs.Fold.Cases
import Formula.Proofs.Fold.Simulation
import Formula.Proofs.Eval.Closure
import Formula.Proofs.Fold.Total
import Formula.Proofs.Eval.Depth
import Formula.Proofs.Fold.Height
import Formula.Proofs.Value.Integers
import Formula.Proofs.Fold.Integers
import Formula.Proofs.Function.Builtin
import Formula.Proofs.Parser.Reads
import Formula.Proofs.Parser.Shape
import Formula.Proofs.Fold.Exact
import Formula.Proofs.Fold.Joining
import Formula.Proofs.Pattern.Language
import Formula.Proofs.Token.Lexer
import Formula.Proofs.Parser.Grammar
import Formula.Proofs.Parser.Returns
import Formula.Proofs.Parser.Spans
import Formula.Proofs.Parser.Derivation
import Formula.Proofs.Parser.Phrase
import Formula.Proofs.Parser.Grammatical
import Formula.Proofs.Program.Compiled
import Formula.Proofs.Fold.Shape
import Formula.Proofs.Program.Floats
import Formula.Proofs.Eval.Malformed
import Formula.Proofs.Session.Steps
import Formula.Proofs.Session.WellFormed
import Formula.Proofs.Eval.Steady
import Formula.Proofs.Session.Frozen
import Formula.Proofs.Fold.Normal
import Formula.Proofs.Parser.Spacing
import Formula.Proofs.Session.Sequence
import Formula.Proofs.CommandLine.Overflow
import Formula.Proofs.Parser.Assignable
import Formula.Proofs.Parser.Assignment
import Formula.Proofs.Program.Unknown
import Formula.Proofs.Fold.Settled
import Formula.Proofs.Session.Shadowing
import Formula.Proofs.Fold.Recorded
import Formula.Proofs.Session.Registration
import Formula.Proofs.Function.Recorded
import Formula.Proofs.Parser.Conserved
import Formula.Proofs.Parser.Viable
import Formula.Proofs.Parser.Bounded
import Formula.Proofs.Program.Enclosed
import Formula.Proofs.Program.Dependence
import Formula.Proofs.Session.Atomic
import Formula.Proofs.Parser.Forced
import Formula.Proofs.Parser.Concatenation
import Formula.Proofs.Value.Remainder
import Formula.Proofs.Session.Kept
import Formula.Proofs.Program.Order
import Formula.Proofs.Token.Covering
import Formula.Proofs.Token.Ends
import Formula.Proofs.Pattern.Ways
import Formula.Proofs.Token.Longest
import Formula.Proofs.Number.Ratio
import Formula.Proofs.Number.Nearest
import Formula.Proofs.Number.Reading
import Formula.Proofs.Number.Negated
import Formula.Proofs.Parser.Numeral
import Formula.Proofs.Session.ReadBack
import Formula.Proofs.Expr.Letters
import Formula.Proofs.Expr.Legible
import Formula.Proofs.Parser.Unambiguous
import Formula.Proofs.Token.Places
import Formula.Proofs.Options.Reading
