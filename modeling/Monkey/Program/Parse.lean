import Monkey.Program.Rules
import Monkey.Token.Reader

/-!
# Reading programs

Reading never gives up on a source text. A statement that cannot be read is reported and everything
up to the next semicolon is skipped, so the tokens fall into consecutive segments.
-/

namespace Monkey

/-- What one segment of the tokens of a program contributes. -/
inductive Segment
  | separator
  | statement (statement : Stmt)
  | abandoned (diagnostic : Diagnostic)

namespace Segment

/-- The statement of a segment that has one. -/
def statement? : Segment → Option Stmt
  | statement s => some s
  | _ => none

/-- The diagnostic of a segment that was abandoned. -/
def diagnostic? : Segment → Option Diagnostic
  | abandoned d => some d
  | _ => none

end Segment

/-- The statements that could be read and the diagnostics of those that could not, each in the order
of the source. -/
structure Parsed where
  program : Program
  diagnostics : List Diagnostic

namespace Tokens

/-- What follows the next semicolon, or the end marker if that comes first. -/
def synchronize (tokens : Tokens) : Tokens :=
  let rest := { tokens with
    front := tokens.front.dropWhile fun t => t.kind ≠ .semicolon ∧ t.kind ≠ .eof }
  if rest.kind = .semicolon then rest.advance else rest

/-- Reads one segment, unless the end has been reached. -/
def segment : StateM Tokens (Option Segment) := do
  let tokens ← get
  match tokens.kind with
  | .eof => return none
  | .semicolon =>
    set tokens.advance
    return some .separator
  | _ =>
    let depth := tokens.front.length
    match ← (Rule.statement (Rule.expression depth .lowest) (Rule.block depth)).run with
    | .ok statement => return some (.statement statement)
    | .error diagnostic =>
      modify synchronize
      return some (.abandoned diagnostic)

/-- Reads all segments up to the first end marker. -/
def segments : StateM Tokens (List Segment) := do
  Rule.many segment (← get).front.length

/-- Reads a program and leaves the tokens from the first end marker on. -/
def parseProgram (tokens : Tokens) : Parsed × Tokens :=
  let (segments, rest) := segments.run tokens
  (⟨segments.filterMap Segment.statement?, segments.filterMap Segment.diagnostic?⟩, rest)

/-- Reads one expression whose outermost suffixes bind more tightly than `min`, and leaves the
tokens after it, or those from where reading failed. -/
def parseExpression (min : Precedence) (tokens : Tokens) : Except Diagnostic Expr × Tokens :=
  (Rule.expression tokens.front.length min).run.run tokens

end Tokens

/-- Reads a source text. -/
def parse (source : String) : Parsed :=
  (Token.tokenize source).parseProgram.1

end Monkey
