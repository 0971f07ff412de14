import Monkey.Diagnostic
import Monkey.Number.Float
import Monkey.Number.Integer
import Monkey.Program.Precedence
import Monkey.Tokens

/-!
# Grammar rules

A rule reads tokens from the front of a sequence and delivers a tree or a diagnostic. Either way,
the tokens it has read stay read.

Rules for nested parts are given to the rules around them as arguments. The recursion is tied in
`expression` and `block` by a depth: each level of nesting reads at least one token first, so as
many levels as there are tokens are enough, and at depth zero only the end marker is left.
-/

namespace Monkey

/-- A rule for trees of type `α`. -/
abbrev Rule (α : Type) := ExceptT Diagnostic (StateM Tokens) α

namespace Rule

variable {α : Type}

/-- Fails at the given token. -/
def fail (cause : Diagnostic.Cause) (token : Token) : Rule α :=
  throw ⟨cause, token.position⟩

/-- The current token, which is not read. -/
def peek : Rule Token := do
  return (← get).current

/-- Reads the current token. -/
def skip : Rule Unit :=
  modify Tokens.advance

/-- Reads the current token if it has the given kind, and tells whether it had. -/
def accept (kind : Token.Kind) : Rule Bool := do
  if (← peek).kind = kind then
    skip
    return true
  else
    return false

/-- Reads the current token, which must have the given kind. -/
def expect (kind : Token.Kind) : Rule Token := do
  let token ← peek
  if token.kind = kind then
    skip
    return token
  else
    fail (.unexpected kind token.kind) token

/-- What a token that starts no expression is reported as. -/
def noOperand (token : Token) : Diagnostic.Cause :=
  match token.kind with
  | .illegal => .illegal token.literal
  | kind => .noOperand kind

/-- Repeats a step until it delivers nothing, at most the given number of times. -/
def many {m : Type → Type} [Monad m] (step : m (Option α)) : Nat → m (List α)
  | 0 => return []
  | count + 1 => do
    match ← step with
    | none => return []
    | some a => return a :: (← many step count)

/-- Repeats a rule that reads a token whenever it delivers something. -/
def manyToEnd (step : Rule (Option α)) : Rule (List α) := do
  many step (← get).front.length

/-- A further item of a list, if a comma follows. -/
def furtherItem (item : Rule α) : Rule (Option α) := do
  if ← accept .comma then
    return some (← item)
  else
    return none

/-- Items between commas, up to a closing token. -/
def commaList (item : Rule α) (close : Token.Kind) : Rule (List α) := do
  if ← accept close then
    return []
  let first ← item
  let rest ← manyToEnd (furtherItem item)
  let _ ← expect close
  return first :: rest

/-- A name. -/
def name : Rule String := do
  return (← expect .ident).literal

/-- A condition in parentheses. -/
def condition (expression : Rule Expr) : Rule Expr := do
  let _ ← expect .lparen
  let condition ← expression
  let _ ← expect .rparen
  return condition

/-- A statement, with a semicolon after it if there is one. -/
def statement (expression : Rule Expr) (block : Rule Block) : Rule Stmt := do
  let statement ← match (← peek).kind with
    | .letWord => do
      skip
      let name ← name
      let _ ← expect .assign
      pure (Stmt.bind name (← expression))
    | .returnWord => do
      skip
      pure (Stmt.ret (← expression))
    | .lbrace => do
      pure (Stmt.block (← block))
    | _ => do
      pure (Stmt.expr (← expression))
  let _ ← accept .semicolon
  return statement

/-- What comes next in a block, unless a closing brace or the end does: a semicolon that means
nothing, or a statement. -/
def blockItem (statement : Rule Stmt) : Rule (Option Block) := do
  match (← peek).kind with
  | .rbrace | .eof => return none
  | .semicolon =>
    skip
    return some []
  | _ => return some [← statement]

/-- Statements up to a closing brace or the end, which is not read. -/
def statements (statement : Rule Stmt) : Rule Block := do
  return (← manyToEnd (blockItem statement)).flatten

/-- The operand that starts with the current token. -/
def operand (expression : Precedence → Rule Expr) (block : Rule Block) : Rule Expr := do
  let token ← peek
  match token.kind with
  | .ident =>
    skip
    return .ident token.literal
  | .int =>
    skip
    match Number.readInteger? token.literal with
    | some value => return .int value
    | none => fail (.invalidInteger token.literal) token
  | .float =>
    skip
    match (Number.readFloat? token.literal).filter Number.isFinite with
    | some value => return .float value
    | none => fail (.invalidFloat token.literal) token
  | .string =>
    skip
    return .string token.literal
  | .trueWord =>
    skip
    return .bool true
  | .falseWord =>
    skip
    return .bool false
  | .bang =>
    skip
    return .unary .not (← expression .unary)
  | .minus =>
    skip
    return .unary .negate (← expression .unary)
  | .lparen =>
    skip
    let inner ← expression .lowest
    let _ ← expect .rparen
    return inner
  | .lbracket =>
    skip
    return .array (← commaList (expression .lowest) .rbracket)
  | .ifWord =>
    skip
    let condition ← condition (expression .lowest)
    let consequence ← block
    if ← accept .elseWord then
      return .conditional condition consequence (some (← block))
    else
      return .conditional condition consequence none
  | .whileWord =>
    skip
    let condition ← condition (expression .lowest)
    return .loop condition (← block)
  | .fnWord =>
    skip
    let _ ← expect .lparen
    let params ← commaList name .rparen
    return .function params (← block)
  | _ => fail (noOperand token) token

/-- Extends an operand by a suffix whose first token has been read. A right operand takes what binds
more tightly than its operator, so chains of one strength lean to the left. -/
def extend (expression : Precedence → Rule Expr) (left : Expr) : Suffix → Rule Expr
  | .call => return .call left (← commaList (expression .lowest) .rparen)
  | .index => do
    let index ← expression .lowest
    let _ ← expect .rbracket
    return .index left index
  | .binary op => return .binary op left (← expression op.precedence)

/-- Extends an operand as long as suffixes follow that bind more tightly than `min`, at most the
given number of times. -/
def suffixes (expression : Precedence → Rule Expr) (min : Precedence) : Nat → Expr → Rule Expr
  | 0, left => return left
  | count + 1, left => do
    match Suffix.ofKind? (← peek).kind with
    | none => return left
    | some suffix =>
      if min < suffix.precedence then
        skip
        suffixes expression min count (← extend expression left suffix)
      else
        return left

mutual

/-- An expression whose outermost suffixes bind more tightly than `min`, nested at most as deep as
the given depth. -/
def expression : Nat → Precedence → Rule Expr
  | 0, _ => do
    let token ← peek
    fail (noOperand token) token
  | depth + 1, min => do
    let left ← operand (expression depth) (block depth)
    suffixes (expression depth) min (← get).front.length left

/-- Statements in braces, nested at most as deep as the given depth. -/
def block : Nat → Rule Block
  | 0 => do
    let token ← peek
    fail (.unexpected .lbrace token.kind) token
  | depth + 1 => do
    let _ ← expect .lbrace
    let body ← statements (statement (expression depth .lowest) (block depth))
    let _ ← expect .rbrace
    return body

end

end Rule

end Monkey
