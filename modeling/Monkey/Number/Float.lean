import Monkey.Decimal.Notation
import Monkey.Decimal.Shortest

/-!
# Floating-point numbers of the language

Floating-point numbers are doubles. They are written with the fewest digits that read back as the
same number, and a literal is read as the double nearest to it.
-/

namespace Monkey.Number

-- Powers are those of the standard library, whatever else is in scope.
attribute [local instance (high)] instPowNat

/-- The bit pattern without its sign bit. -/
def word (x : Float) : Nat := x.toBits.toNat % 2 ^ (63 : Nat)

/-- The sign bit is set. -/
def isNegative (x : Float) : Bool := 2 ^ (63 : Nat) ≤ x.toBits.toNat

/-- The double with this sign and word. -/
def ofWord (negative : Bool) (word : Nat) : Float :=
  Float.ofBits (UInt64.ofNat ((if negative then 2 ^ (63 : Nat) else 0) + word))

/-- Neither infinite nor without a value. -/
def isFinite (x : Float) : Bool := word x < Decimal.infinityWord

/-- The shortest positional notation that reads back as the same double. Zero keeps its sign, and a
number without a value is written without one. -/
def floatText (x : Float) : String :=
  if Decimal.infinityWord < word x then "NaN"
  else
    let magnitude := if isFinite x then (Decimal.shortest (word x)).positional else "inf".toList
    String.ofList (if isNegative x then '-' :: magnitude else magnitude)

/-- The word of a magnitude written as `inf`, `infinity` or `nan`, in any case of letters, or as a
decimal number. -/
def readWord? (cs : List Char) : Option Nat :=
  match String.ofList (cs.map Char.toLower) with
  | "inf" | "infinity" => some Decimal.infinityWord
  | "nan" => some Decimal.notNumberWord
  | _ => (Decimal.read? cs).map Decimal.nearestWord

/-- Reads an optionally signed magnitude as the nearest double. -/
def readFloat? (text : String) : Option Float :=
  match text.toList with
  | '-' :: magnitude => (readWord? magnitude).map (ofWord true)
  | '+' :: magnitude => (readWord? magnitude).map (ofWord false)
  | magnitude => (readWord? magnitude).map (ofWord false)

end Monkey.Number
