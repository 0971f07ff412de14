import Monkey.Decimal.Notation

/-!
# Integers of the language

Integers have 64 bits and a sign. Arithmetic is exact on whole numbers first; a result that does
not fit is no integer of the language.
-/

namespace Monkey.Number

-- Powers are those of the standard library, whatever else is in scope.
attribute [local instance (high)] instPowNat

/-- The integer with this value, if it lies between `-2 ^ 63` and `2 ^ 63 - 1`. -/
def integer? (value : Int) : Option Int64 :=
  if -2 ^ (63 : Nat) ≤ value ∧ value < 2 ^ (63 : Nat) then some (Int64.ofInt value) else none

/-- Reads an integer literal: an optional sign and decimal digits. -/
def readInteger? (text : String) : Option Int64 :=
  Decimal.readSigned? text.toList >>= integer?

/-- Decimal notation with a sign for negative numbers only. -/
def integerText (n : Int64) : String :=
  toString n.toInt

end Monkey.Number
