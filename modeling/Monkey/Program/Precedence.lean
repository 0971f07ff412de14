import Monkey.Program
import Monkey.Token

/-!
# Precedence

How tightly the parts of an expression bind, and what may follow a complete operand.
-/

namespace Monkey

/-- Binding strengths, loosest first. -/
inductive Precedence
  | lowest | logical | equality | comparison | sum | product | unary | call | index
deriving DecidableEq, Repr, Inhabited

namespace Precedence

/-- The place of a strength in the order. -/
def level : Precedence → Nat
  | lowest => 0
  | logical => 1
  | equality => 2
  | comparison => 3
  | sum => 4
  | product => 5
  | unary => 6
  | call => 7
  | index => 8

instance : LT Precedence := ⟨fun p q => p.level < q.level⟩

instance : LE Precedence := ⟨fun p q => p.level ≤ q.level⟩

instance (p q : Precedence) : Decidable (p < q) := inferInstanceAs (Decidable (p.level < q.level))

instance (p q : Precedence) : Decidable (p ≤ q) := inferInstanceAs (Decidable (p.level ≤ q.level))

end Precedence

/-- How tightly an operator binds its operands. -/
def BinaryOp.precedence : BinaryOp → Precedence
  | and | or => .logical
  | equal | notEqual => .equality
  | less | greater => .comparison
  | add | subtract => .sum
  | multiply | divide => .product

/-- What extends a complete operand to a larger expression: arguments, an index, or an operator with
its right operand. -/
inductive Suffix
  | call | index | binary (op : BinaryOp)
deriving DecidableEq, Repr, Inhabited

namespace Suffix

/-- The suffix that starts with a token of the given kind. -/
def ofKind? : Token.Kind → Option Suffix
  | .lparen => some call
  | .lbracket => some index
  | .plus => some (binary .add)
  | .minus => some (binary .subtract)
  | .asterisk => some (binary .multiply)
  | .slash => some (binary .divide)
  | .lt => some (binary .less)
  | .gt => some (binary .greater)
  | .eq => some (binary .equal)
  | .notEq => some (binary .notEqual)
  | .and => some (binary .and)
  | .or => some (binary .or)
  | _ => none

/-- How tightly the suffix binds the operand before it. -/
def precedence : Suffix → Precedence
  | call => .call
  | index => .index
  | binary op => op.precedence

end Suffix

end Monkey
