import Monkey.Builtin
import Monkey.Builtin.Call
import Monkey.CommandLine
import Monkey.Decimal
import Monkey.Decimal.Binary
import Monkey.Decimal.Notation
import Monkey.Decimal.Shortest
import Monkey.Diagnostic
import Monkey.Evaluation
import Monkey.Fault
import Monkey.Host.Console
import Monkey.Host.Directory
import Monkey.Host.Failure
import Monkey.Main
import Monkey.Memory
import Monkey.Memory.Bindings
import Monkey.Memory.Equality
import Monkey.Memory.Unfolding
import Monkey.Number.Float
import Monkey.Number.Integer
import Monkey.Operator
import Monkey.Program
import Monkey.Program.Parse
import Monkey.Program.Parser
import Monkey.Program.Precedence
import Monkey.Program.Render
import Monkey.Program.Rules
import Monkey.Program.Same
import Monkey.Proofs.Arithmetic
import Monkey.Proofs.Arithmetic.Reading
import Monkey.Proofs.Builtin.Effect
import Monkey.Proofs.Builtin.Frames
import Monkey.Proofs.Builtin.Output
import Monkey.Proofs.Builtin.Rules
import Monkey.Proofs.Decimal
import Monkey.Proofs.Decimal.Notation
import Monkey.Proofs.Evaluation
import Monkey.Proofs.Evaluation.Acyclic
import Monkey.Proofs.Evaluation.Answers
import Monkey.Proofs.Evaluation.Arrays
import Monkey.Proofs.Evaluation.Confinement
import Monkey.Proofs.Evaluation.Contract
import Monkey.Proofs.Evaluation.Custody
import Monkey.Proofs.Evaluation.Dialect
import Monkey.Proofs.Evaluation.Failure
import Monkey.Proofs.Evaluation.Irrelevance
import Monkey.Proofs.Evaluation.Known
import Monkey.Proofs.Evaluation.Levels
import Monkey.Proofs.Evaluation.Lines
import Monkey.Proofs.Evaluation.Signals
import Monkey.Proofs.Evaluation.Signals.Agreement
import Monkey.Proofs.Evaluation.Steps
import Monkey.Proofs.Evaluation.Twins
import Monkey.Proofs.Evaluation.WellFormed
import Monkey.Proofs.Grammar
import Monkey.Proofs.Grammar.Acceptance
import Monkey.Proofs.Grammar.Completeness
import Monkey.Proofs.Grammar.Legal
import Monkey.Proofs.Grammar.Soundness
import Monkey.Proofs.Host.Console
import Monkey.Proofs.Host.Lines
import Monkey.Proofs.Host.Output
import Monkey.Proofs.Inline
import Monkey.Proofs.Inline.Agreement
import Monkey.Proofs.Inline.Evaluation
import Monkey.Proofs.Inline.Operations
import Monkey.Proofs.Memory.Acyclic
import Monkey.Proofs.Memory.Equality
import Monkey.Proofs.Memory.Scope
import Monkey.Proofs.Number
import Monkey.Proofs.Program.Concatenation
import Monkey.Proofs.Program.Copies
import Monkey.Proofs.Program.Dialect
import Monkey.Proofs.Program.Illegal
import Monkey.Proofs.Program.Minimum
import Monkey.Proofs.Program.Positions
import Monkey.Proofs.Program.Reading
import Monkey.Proofs.Program.Recovery
import Monkey.Proofs.Program.RoundTrip
import Monkey.Proofs.Program.Segments
import Monkey.Proofs.Program.Spellable
import Monkey.Proofs.Session
import Monkey.Proofs.Session.Acyclic
import Monkey.Proofs.Session.Arithmetic
import Monkey.Proofs.Session.Arrays
import Monkey.Proofs.Session.Concatenation
import Monkey.Proofs.Session.Confinement
import Monkey.Proofs.Session.Display
import Monkey.Proofs.Session.Inline
import Monkey.Proofs.Session.Isolation
import Monkey.Proofs.Session.Lines
import Monkey.Proofs.Session.Output
import Monkey.Proofs.Session.Prompts
import Monkey.Proofs.Session.Refusal
import Monkey.Proofs.Session.Sources
import Monkey.Proofs.Token
import Monkey.Proofs.Token.Concatenation
import Monkey.Proofs.Token.Delivery
import Monkey.Proofs.Token.Layout
import Monkey.Proofs.Token.LongestMatch
import Monkey.Proofs.Token.Respacing
import Monkey.Proofs.Token.Spelling
import Monkey.Proofs.World
import Monkey.Session
import Monkey.Shell
import Monkey.Text.Alphabetic
import Monkey.Text.Blank
import Monkey.Text.Numeric
import Monkey.Text.Ranges
import Monkey.Token
import Monkey.Token.Lexeme
import Monkey.Token.Reader
import Monkey.Tokens
import Monkey.Value
import Monkey.World
