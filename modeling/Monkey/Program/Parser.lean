import Monkey.Program.Parse

/-!
# Parsers

A parser stands somewhere in a sequence of tokens and may be asked again and again to read on from
there. It keeps the diagnostics of the programs it has read; that of a single expression is
delivered instead.
-/

namespace Monkey

/-- The tokens that have not been read yet, and the diagnostics recorded so far. -/
structure Parser where
  tokens : Tokens
  diagnostics : List Diagnostic

namespace Parser

/-- A parser that has read nothing. -/
def ofTokens (tokens : Tokens) : Parser :=
  ⟨tokens, []⟩

/-- A parser at the start of a source text. -/
def ofSource (source : String) : Parser :=
  ofTokens (Token.tokenize source)

/-- Reads a program and records the diagnostics of the statements that were abandoned. -/
def program : StateM Parser Program := do
  let parser ← get
  let (parsed, rest) := parser.tokens.parseProgram
  set (⟨rest, parser.diagnostics ++ parsed.diagnostics⟩ : Parser)
  return parsed.program

/-- Reads one expression whose outermost suffixes bind more tightly than `min`. -/
def expression (min : Precedence) : StateM Parser (Except Diagnostic Expr) := do
  let parser ← get
  let (result, rest) := parser.tokens.parseExpression min
  set { parser with tokens := rest }
  return result

end Parser

end Monkey
