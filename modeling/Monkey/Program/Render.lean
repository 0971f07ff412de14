import Monkey.Number.Float
import Monkey.Number.Integer
import Monkey.Program

/-!
# Canonical source text of programs

Every operator application and every index expression is written in one pair of parentheses, so
that precedence never matters when the text is read again.
-/

namespace Monkey

/-- A floating-point literal always has a point. -/
def floatLiteral (x : Float) : String :=
  let text := Number.floatText x
  if text.toList.contains '.' then text else text ++ ".0"

namespace Expr

/-- The expression is written in parentheses of its own. -/
def isEnclosed : Expr → Bool
  | unary .. | binary .. | index .. => true
  | _ => false

/-- The text of a condition, given the text of its expression. -/
def enclose (condition : Expr) (text : String) : String :=
  if condition.isEnclosed then text else "(" ++ text ++ ")"

end Expr

/-- The text of a block, given the text of its statements. -/
def braced (body : Block) (text : String) : String :=
  if body.isEmpty then "\x7b\n\x7d" else "\x7b\n" ++ text ++ "\n\x7d"

mutual

/-- The canonical text of an expression. -/
def Expr.render : Expr → String
  | .ident name => name
  | .int value => Number.integerText value
  | .float value => floatLiteral value
  | .bool value => if value then "true" else "false"
  | .string value => "\"" ++ value ++ "\""
  | .array elements => "[" ++ renderArgs elements ++ "]"
  | .unary op operand => "(" ++ op.symbol ++ operand.render ++ ")"
  | .binary op left right => "(" ++ left.render ++ " " ++ op.symbol ++ " " ++ right.render ++ ")"
  | .index collection index => "(" ++ collection.render ++ "[" ++ index.render ++ "])"
  | .conditional condition consequence alternative =>
    "if" ++ condition.enclose condition.render ++ " " ++
      braced consequence (renderStmts consequence) ++ renderAlternative alternative
  | .loop condition body =>
    "while" ++ condition.enclose condition.render ++ " " ++ braced body (renderStmts body)
  | .function params body =>
    "fn(" ++ ",".intercalate params ++ ")" ++ braced body (renderStmts body)
  | .call callee args => callee.render ++ "(" ++ renderArgs args ++ ")"

/-- The canonical text of a statement, without a closing semicolon. -/
def Stmt.render : Stmt → String
  | .bind name value => "let " ++ name ++ " = " ++ value.render
  | .ret value => "return " ++ value.render
  | .expr value => value.render
  | .block body => braced body (renderStmts body)

/-- Expressions between commas. -/
def renderArgs : List Expr → String
  | [] => ""
  | [last] => last.render
  | first :: rest => first.render ++ "," ++ renderArgs rest

/-- Statements on lines of their own, between semicolons. -/
def renderStmts : List Stmt → String
  | [] => ""
  | [last] => last.render
  | first :: rest => first.render ++ ";\n" ++ renderStmts rest

/-- The alternative of a conditional, if it has one. -/
def renderAlternative : Option (List Stmt) → String
  | none => ""
  | some body => "else" ++ braced body (renderStmts body)

end

/-- The canonical text of a program. -/
def Program.render (program : Program) : String :=
  renderStmts program

/-- The canonical text of a block. -/
def Block.render (body : Block) : String :=
  braced body (renderStmts body)

end Monkey
