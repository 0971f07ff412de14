import Monkey.Token

/-!
# Diagnostics

What a source text is rejected for, and where.
-/

namespace Monkey

/-- Why a statement cannot be read. -/
inductive Diagnostic.Cause
  | unexpected (expected found : Token.Kind)
  | noOperand (found : Token.Kind)
  | illegal (literal : String)
  | invalidInteger (literal : String)
  | invalidFloat (literal : String)
deriving DecidableEq, Repr, Inhabited

/-- A cause and the position of the token that shows it. -/
structure Diagnostic where
  cause : Diagnostic.Cause
  position : Position
deriving DecidableEq, Repr, Inhabited

namespace Diagnostic

/-- The wording of a cause. -/
def Cause.message : Cause → String
  | unexpected expected found =>
    "expected next token to be " ++ expected.name ++ ", got " ++ found.name ++ " instead"
  | noOperand found => "no prefix parse function for " ++ found.name ++ " found"
  | illegal literal => "illegal token `" ++ literal ++ "`"
  | invalidInteger literal => "could not parse `" ++ literal ++ "` as integer"
  | invalidFloat literal => "could not parse `" ++ literal ++ "` as float"

/-- Line, column and cause. -/
def message (d : Diagnostic) : String :=
  toString d.position.line ++ ":" ++ toString d.position.column ++ ": " ++ d.cause.message

end Diagnostic

end Monkey
