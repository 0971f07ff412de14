import Monkey.Memory

/-!
# Equality of values

Arrays are equal when they are the same array or have equal elements; functions are equal when they
are the same function, builtin functions when they have the same name. Floating-point numbers are
compared as numbers. Comparing arrays that contain themselves may not end, and then has no answer.
-/

namespace Monkey

/-- Compares two values, given how arrays are compared. -/
def Value.equalWith (arrays : ArrayRef → ArrayRef → Option Bool) : Value → Value → Option Bool
  | .integer a, .integer b => some (a == b)
  | .float a, .float b => some (a == b)
  | .boolean a, .boolean b => some (a == b)
  | .string a, .string b => some (a == b)
  | .array a, .array b => arrays a b
  | .null, .null => some true
  | .function a, .function b => some (a == b)
  | .builtin a, .builtin b => some (a.name == b.name)
  | .returned a, .returned b => a.equalWith arrays b
  | .error a, .error b => some (a == b)
  | _, _ => some false

/-- Compares two lists element by element, up to the first difference. -/
def Value.allEqualWith (equal : Value → Value → Option Bool) :
    List Value → List Value → Option Bool
  | [], [] => some true
  | a :: as, b :: bs => do
    if ← equal a b then allEqualWith equal as bs else some false
  | _, _ => some false

namespace Memory

/-- Compares two arrays, at most the given number of levels deep. Lengths are compared before
elements. -/
def equalArrays? (memory : Memory) : Nat → ArrayRef → ArrayRef → Option Bool
  | 0, _, _ => none
  | depth + 1, a, b =>
    if a = b then some true
    else
      let left := memory.elements a
      let right := memory.elements b
      if left.size = right.size then
        Value.allEqualWith (Value.equalWith (memory.equalArrays? depth)) left.toList right.toList
      else some false

/-- Compares two values. A comparison that ends meets no pair of arrays within itself, so it is no
deeper than there are pairs. -/
def equal? (memory : Memory) (a b : Value) : Option Bool :=
  let count := memory.arrays.size
  Value.equalWith (memory.equalArrays? (count * count + 1)) a b

end Memory

end Monkey
