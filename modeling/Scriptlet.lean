import Scriptlet.Main
import Scriptlet.Proofs.Run.Span
import Scriptlet.Proofs.Run.Frames
import Scriptlet.Proofs.Run.Hidden
import Scriptlet.Proofs.Run.Limit
import Scriptlet.Proofs.Run.Halting
import Scriptlet.Proofs.Run.Joined
import Scriptlet.Proofs.Run.Sink
import Scriptlet.Proofs.Grammar.Phrase
import Scriptlet.Proofs.Grammar.Steps
import Scriptlet.Proofs.Grammar.Derivation
import Scriptlet.Proofs.Grammar.Acceptance
import Scriptlet.Proofs.Grammar.Faithful
import Scriptlet.Proofs.Lexing.Rules
import Scriptlet.Proofs.Lexing.Literals
import Scriptlet.Proofs.Lexing.Reading
import Scriptlet.Proofs.Grammar.Reads
import Scriptlet.Proofs.Grammar.Exact
import Scriptlet.Proofs.Grammar.Completion
import Scriptlet.Proofs.Printing.WellFormed
import Scriptlet.Proofs.Decimal.Nearest
import Scriptlet.Proofs.Printing.Parsed
import Scriptlet.Proofs.Printing.Text
import Scriptlet.Proofs.Printing.Printer
import Scriptlet.Proofs.Printing.Reals
import Scriptlet.Proofs.Printing.RoundTrip
import Scriptlet.Proofs.Printing.ReadBack
import Scriptlet.Proofs.Printing.Unambiguous
import Scriptlet.Proofs.Printing.Writing
import Scriptlet.Proofs.Values.Comparing
import Scriptlet.Proofs.Values.Order
import Scriptlet.Proofs.Values.Equivalence
import Scriptlet.Proofs.Run.Code
import Scriptlet.Proofs.Run.WellCalled
import Scriptlet.Proofs.Run.Elements
import Scriptlet.Proofs.Run.Renaming
import Scriptlet.Proofs.Run.Knots
import Scriptlet.Proofs.Run.Solid
import Scriptlet.Proofs.Grammar.Binding
import Scriptlet.Proofs.Arithmetic.Bounded
import Scriptlet.Proofs.Arithmetic.Integers
import Scriptlet.Proofs.Arithmetic.Remainders
import Scriptlet.Proofs.Decimal.Parts
import Scriptlet.Proofs.Decimal.Whole
import Scriptlet.Proofs.Arithmetic.MixedOrder
import Scriptlet.Proofs.Run.Places
import Scriptlet.Proofs.Run.Aliases
import Scriptlet.Proofs.Run.Pure
import Scriptlet.Proofs.Run.Brackets
import Scriptlet.Proofs.Run.Doomed
