import Monkey.Fault
import Monkey.Memory
import Monkey.Number.Float

/-!
# Operators

Operators work on operands of one type. Integer arithmetic is exact or fails; floating-point numbers
are equal when they differ by less than `2 ^ -52`.
-/

namespace Monkey

/-- The integer with this value, or an overflow if there is none. -/
def checked (value : Int) : Except Fault Value :=
  match Number.integer? value with
  | some n => .ok (.integer n)
  | none => .error .overflow

/-- Applies an operator to its operand. -/
def UnaryOp.apply (op : UnaryOp) (operand : Value) : Except Fault Value :=
  match op, operand with
  | .not, .boolean b => .ok (.boolean !b)
  | .negate, .integer n => checked (-n.toInt)
  | .negate, .float x => .ok (.float (-x))
  | _, _ => .error (.unaryOperand op operand.kind)

/-- The result on integers, unless the operator has none. Division truncates toward zero. -/
def BinaryOp.onIntegers? (a b : Int) : BinaryOp → Option (Except Fault Value)
  | add => some (checked (a + b))
  | subtract => some (checked (a - b))
  | multiply => some (checked (a * b))
  | divide => some (if b = 0 then .error .divisionByZero else checked (a.tdiv b))
  | less => some (.ok (.boolean (a < b)))
  | greater => some (.ok (.boolean (a > b)))
  | equal => some (.ok (.boolean (a = b)))
  | notEqual => some (.ok (.boolean (a ≠ b)))
  | and | or => none

attribute [local instance (high)] instPowNat in
/-- The distance from which on two floating-point numbers differ: `2 ^ -52`. -/
def tolerance : Float := Number.ofWord false (971 * 2 ^ (52 : Nat))

/-- The numbers are closer than the tolerance. Infinities of one sign are not, since their
difference has no value. -/
def nearlyEqual (x y : Float) : Bool :=
  let difference := x - y
  difference < tolerance && -tolerance < difference

/-- The result on floating-point numbers, unless the operator has none. -/
def BinaryOp.onFloats? (x y : Float) : BinaryOp → Option Value
  | add => some (.float (x + y))
  | subtract => some (.float (x - y))
  | multiply => some (.float (x * y))
  | divide => some (.float (x / y))
  | less => some (.boolean (x < y))
  | greater => some (.boolean (x > y))
  | equal => some (.boolean (nearlyEqual x y))
  | notEqual => some (.boolean !nearlyEqual x y)
  | and | or => none

/-- The result on truth values, unless the operator has none. -/
def BinaryOp.onBooleans? (a b : Bool) : BinaryOp → Option Value
  | equal => some (.boolean (a == b))
  | notEqual => some (.boolean (a != b))
  | and => some (.boolean (a && b))
  | or => some (.boolean (a || b))
  | _ => none

/-- The result on strings, unless the operator has none. -/
def BinaryOp.onStrings? (a b : String) : BinaryOp → Option Value
  | add => some (.string (a ++ b))
  | _ => none

/-- Applies an operator to its operands. -/
def BinaryOp.apply (op : BinaryOp) (left right : Value) : Except Fault Value :=
  let result := match left, right with
    | .integer a, .integer b => op.onIntegers? a.toInt b.toInt
    | .float x, .float y => (op.onFloats? x y).map .ok
    | .boolean a, .boolean b => (op.onBooleans? a b).map .ok
    | .string a, .string b => (op.onStrings? a b).map .ok
    | _, _ => none
  result.getD (.error (.binaryOperands op left.kind right.kind))

/-- The element of an array at an integer index. -/
def Memory.index (memory : Memory) (collection index : Value) : Except Fault Value :=
  match collection, index with
  | .array ref, .integer i =>
    let elements := memory.elements ref
    match if 0 ≤ i.toInt then elements[i.toInt.toNat]? else none with
    | some value => .ok value
    | none => .error (.outOfBounds i elements.size)
  | _, _ => .error (.notIndexable collection.kind index.kind)

end Monkey
