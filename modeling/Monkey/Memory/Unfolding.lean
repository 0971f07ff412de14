import Monkey.Memory
import Monkey.Program.Render

/-!
# Unfolded values and their text

A value is unfolded by putting the contents of arrays and functions in place of their identities.
An array that contains itself has no finite unfolding; where it is met again on its own path, the
unfolding holds a mark, and the value has no text.
-/

namespace Monkey

/-- A value with the contents of its arrays and functions. -/
inductive Unfolded
  | integer (value : Int64)
  | float (value : Float)
  | boolean (value : Bool)
  | string (value : String)
  | array (elements : List Unfolded)
  | null
  | function (params : List String) (body : Block)
  | builtin (name : String)
  | returned (value : Unfolded)
  | error (message : String)
  | cycle

namespace Unfolded

mutual

/-- The text of a value, if its unfolding holds no cycle. -/
def text? : Unfolded → Option String
  | integer n => some (Number.integerText n)
  | float x => some (Number.floatText x)
  | boolean b => some (if b then "true" else "false")
  | string s => some s
  | array elements => do return "[" ++ (← elementsText? elements) ++ "]"
  | null => some "null"
  | function params body => some ("fn(" ++ ", ".intercalate params ++ ") " ++ body.render)
  | builtin _ => some "builtin function"
  | returned value => value.text?
  | error message => some ("Error: " ++ message)
  | cycle => none

/-- The texts of the elements of an array, between commas. -/
def elementsText? : List Unfolded → Option String
  | [] => some ""
  | [last] => last.text?
  | first :: rest => do return (← first.text?) ++ ", " ++ (← elementsText? rest)

end

end Unfolded

/-- Unfolds a value, given how arrays are unfolded. -/
def Value.unfoldWith (memory : Memory) (array : ArrayRef → Unfolded) : Value → Unfolded
  | .integer n => .integer n
  | .float x => .float x
  | .boolean b => .boolean b
  | .string s => .string s
  | .array ref => array ref
  | .null => .null
  | .function ref =>
    let function := (memory.function? ref).getD default
    .function function.params function.body
  | .builtin b => .builtin b.name
  | .returned value => .returned (value.unfoldWith memory array)
  | .error message => .error message

namespace Memory

/-- Unfolds an array that is met below the arrays of `path`, at most the given number of levels
deep. -/
def unfoldArray (memory : Memory) : Nat → List ArrayRef → ArrayRef → Unfolded
  | 0, _, _ => .cycle
  | depth + 1, path, ref =>
    if ref ∈ path then .cycle
    else
      .array <| (memory.elements ref).toList.map
        (·.unfoldWith memory (memory.unfoldArray depth (ref :: path)))

/-- Unfolds a value. A path without repetition is no longer than the table of arrays, unless it ends
in an identity outside the table, which holds nothing. -/
def unfold (memory : Memory) (value : Value) : Unfolded :=
  value.unfoldWith memory (memory.unfoldArray (memory.arrays.size + 1) [])

/-- The text of a value, if it has one. -/
def text? (memory : Memory) (value : Value) : Option String :=
  (memory.unfold value).text?

end Memory

end Monkey
