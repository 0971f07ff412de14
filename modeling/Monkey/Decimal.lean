import Monkey.Decimal.Binary

/-!
# Decimal numbers and the doubles nearest to them

A decimal number is a natural number of digits scaled by a power of ten. Every decimal number has
one nearest double, ties going to the even significand.
-/

namespace Monkey

/-- The nonnegative number `digits * 10 ^ exponent`. -/
structure Decimal where
  digits : Nat
  exponent : Int
deriving DecidableEq, Repr, Inhabited

namespace Decimal

-- Powers are those of the standard library, whatever else is in scope.
attribute [local instance (high)] instPowNat

/-- How many decimal digits the number `n` is written with. -/
def digitCount (n : Nat) : Nat := (Nat.toDigits 10 n).length

/-- The number as a quotient of natural numbers, in units of `2 ^ -1074`. -/
def units (d : Decimal) : Nat × Nat :=
  match d.exponent with
  | .ofNat e => (d.digits * 10 ^ e * 2 ^ (1074 : Nat), 1)
  | .negSucc e => (d.digits * 2 ^ (1074 : Nat), 10 ^ (e + 1))

/-- The word of the nearest double. From `10 ^ 310` on that is infinity and below `10 ^ -330` it is
zero, so no power of ten beyond these is ever formed. -/
def nearestWord (d : Decimal) : Nat :=
  let magnitude := digitCount d.digits + d.exponent
  if d.digits = 0 then 0
  else if 310 < magnitude then infinityWord
  else if magnitude < -330 then 0
  else wordOfUnits d.units.1 d.units.2

end Decimal

end Monkey
