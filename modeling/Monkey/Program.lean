/-!
# Programs

The syntax trees of the language. Conditionals, loops and function literals are expressions; a
block is a list of statements.
-/

namespace Monkey

/-- Operators with one operand, written before it. -/
inductive UnaryOp
  | not | negate
deriving DecidableEq, Repr, Inhabited

/-- Operators with two operands, written between them. -/
inductive BinaryOp
  | add | subtract | multiply | divide | less | greater | equal | notEqual | and | or
deriving DecidableEq, Repr, Inhabited

mutual

/-- An expression. -/
inductive Expr
  | ident (name : String)
  | int (value : Int64)
  | float (value : Float)
  | bool (value : Bool)
  | string (value : String)
  | array (elements : List Expr)
  | unary (op : UnaryOp) (operand : Expr)
  | binary (op : BinaryOp) (left right : Expr)
  | index (collection index : Expr)
  | conditional (condition : Expr) (consequence : List Stmt) (alternative : Option (List Stmt))
  | loop (condition : Expr) (body : List Stmt)
  | function (params : List String) (body : List Stmt)
  | call (callee : Expr) (args : List Expr)

/-- A statement. -/
inductive Stmt
  | bind (name : String) (value : Expr)
  | ret (value : Expr)
  | expr (value : Expr)
  | block (body : List Stmt)

end

instance : Inhabited Expr := ⟨.bool false⟩

instance : Inhabited Stmt := ⟨.block []⟩

/-- Statements that are executed in order. -/
abbrev Block := List Stmt

/-- A whole source text. -/
abbrev Program := List Stmt

namespace UnaryOp

/-- How the operator is written. -/
def symbol : UnaryOp → String
  | not => "!"
  | negate => "-"

end UnaryOp

namespace BinaryOp

/-- How the operator is written. -/
def symbol : BinaryOp → String
  | add => "+"
  | subtract => "-"
  | multiply => "*"
  | divide => "/"
  | less => "<"
  | greater => ">"
  | equal => "=="
  | notEqual => "!="
  | and => "&&"
  | or => "||"

end BinaryOp

end Monkey
