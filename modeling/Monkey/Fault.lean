import Monkey.Host.Failure
import Monkey.Number.Integer
import Monkey.Program
import Monkey.Value

/-!
# Faults

Why an evaluation fails. A script sees a fault as an error value that carries its wording.
-/

namespace Monkey

/-- Why an operation, a call or a look-up fails. -/
inductive Fault
  | unbound (name : String)
  | notFunction (found : Value.Kind)
  | argumentCount (expected found : Nat)
  | argumentType (function : String) (expected found : Value.Kind)
  | noLength (found : Value.Kind)
  | overflow
  | divisionByZero
  | unaryOperand (op : UnaryOp) (operand : Value.Kind)
  | binaryOperands (op : BinaryOp) (left right : Value.Kind)
  | outOfBounds (index : Int64) (length : Nat)
  | notIndexable (collection index : Value.Kind)
  | console (failure : Host.Failure)
  | unreadable (path : String) (failure : Host.Failure)
  | unwritable (path : String) (failure : Host.Failure)
  | raised (message : String)
deriving DecidableEq, Repr, Inhabited

namespace Fault

/-- The wording of a fault. Operands of one type are to blame together with the operator, operands
of two types for being different. -/
def message : Fault → String
  | unbound name => "identifier not found: " ++ name
  | notFunction found => "not a function: " ++ found.name
  | argumentCount expected found =>
    "wrong number of arguments: expected " ++ toString expected ++ ", got " ++ toString found
  | argumentType function expected found =>
    "argument to `" ++ function ++ "` must be " ++ expected.name ++ ", got " ++ found.name
  | noLength found => "argument to `len` not supported, got " ++ found.name
  | overflow => "integer overflow"
  | divisionByZero => "division by zero"
  | unaryOperand op operand => "unknown operator: " ++ op.symbol ++ operand.name
  | binaryOperands op left right =>
    (if left = right then "unknown operator: " else "type mismatch: ") ++
      left.name ++ " " ++ op.symbol ++ " " ++ right.name
  | outOfBounds index length =>
    "index out of bounds: " ++ Number.integerText index ++ " (length " ++ toString length ++ ")"
  | notIndexable collection index =>
    "index operator not supported: " ++ collection.name ++ "[" ++ index.name ++ "]"
  | console failure => "console I/O failed: " ++ failure.message
  | unreadable path failure => "could not read `" ++ path ++ "`: " ++ failure.message
  | unwritable path failure => "could not write `" ++ path ++ "`: " ++ failure.message
  | raised message => message

/-- The error value that a script sees. -/
def toValue (fault : Fault) : Value := .error fault.message

end Fault

/-- The value of an operation that may fail. -/
def Value.ofExcept : Except Fault Value → Value
  | .ok value => value
  | .error fault => fault.toValue

end Monkey
