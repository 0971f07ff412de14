import Monkey.Builtin

/-!
# Values

What expressions evaluate to. Arrays and functions have an identity and are held by reference. An
error and a pending return are values too: they cut short whatever was being evaluated.
-/

namespace Monkey

/-- The identity of an array. -/
structure ArrayRef where
  index : Nat
deriving DecidableEq, Repr, Inhabited

/-- The identity of a function. -/
structure FunctionRef where
  index : Nat
deriving DecidableEq, Repr, Inhabited

/-- The identity of a frame of bindings. -/
structure FrameRef where
  index : Nat
deriving DecidableEq, Repr, Inhabited

/-- A value of the language. -/
inductive Value
  | integer (value : Int64)
  | float (value : Float)
  | boolean (value : Bool)
  | string (value : String)
  | array (ref : ArrayRef)
  | null
  | function (ref : FunctionRef)
  | builtin (builtin : Builtin)
  | returned (value : Value)
  | error (message : String)
deriving DecidableEq, Inhabited

/-- The types of values. -/
inductive Value.Kind
  | integer | float | boolean | string | array | null | function | builtin | returned | error
deriving DecidableEq, Repr, Inhabited

/-- The name of the type in messages. -/
def Value.Kind.name : Value.Kind → String
  | integer => "INTEGER"
  | float => "FLOAT"
  | boolean => "BOOLEAN"
  | string => "STRING"
  | array => "ARRAY"
  | null => "NULL"
  | function => "FUNCTION"
  | builtin => "BUILTIN"
  | returned => "RETURN_VALUE"
  | error => "ERROR"

namespace Value

/-- The type of a value. -/
def kind : Value → Kind
  | integer _ => .integer
  | float _ => .float
  | boolean _ => .boolean
  | string _ => .string
  | array _ => .array
  | null => .null
  | function _ => .function
  | builtin _ => .builtin
  | returned _ => .returned
  | error _ => .error

/-- Errors and pending returns end the evaluation of what contains them. -/
def isAbrupt : Value → Bool
  | returned _ | error _ => true
  | _ => false

/-- Only `false` and the integer zero count as false. -/
def isTruthy : Value → Bool
  | boolean b => b
  | integer n => n != 0
  | _ => true

/-- The value that a call or a program delivers: a pending return ends there. -/
def unwrapReturn : Value → Value
  | returned value => value
  | value => value

end Value

end Monkey
