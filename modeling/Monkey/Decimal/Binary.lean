/-!
# Magnitudes of doubles as natural numbers

Two natural numbers describe the magnitude of a double. Its *word* is its bit pattern without the
sign bit. Its *units* say how many times it holds the smallest positive double, `2 ^ -1074`. Words
and units grow together, so rounding a positive quotient of units to a double is integer arithmetic.
-/

namespace Monkey.Decimal

-- Powers are those of the standard library, whatever else is in scope.
attribute [local instance (high)] instPowNat

/-- The word of infinity. Smaller words are finite magnitudes, larger ones are no numbers. -/
def infinityWord : Nat := 2047 * 2 ^ (52 : Nat)

/-- The word of the canonical double that is no number. -/
def notNumberWord : Nat := infinityWord + 2 ^ (51 : Nat)

/-- The units of a finite magnitude. Below `2 ^ 53` a word counts units; above, the leading
significand bit is implicit and the exponent field scales the significand. -/
def unitsOfWord (word : Nat) : Nat :=
  if word < 2 ^ (53 : Nat) then word
  else (2 ^ (52 : Nat) + word % 2 ^ (52 : Nat)) * 2 ^ (word / 2 ^ (52 : Nat) - 1)

/-- The quotient rounded to the nearest integer, a half to the even neighbour. -/
def roundDiv (num den : Nat) : Nat :=
  let quotient := num / den
  let remainder := num % den
  if 2 * remainder < den then quotient
  else if den < 2 * remainder then quotient + 1
  else quotient + quotient % 2

/-- The word of the double nearest to `num / den` units, infinity when that is too large. A
significand has 53 bits, so larger quotients are rounded to a multiple of a power of two; a
significand that rounds up to `2 ^ 53` carries into the exponent field by itself. -/
def wordOfUnits (num den : Nat) : Nat :=
  let shift := (num / den).log2 - 52
  min (shift * 2 ^ (52 : Nat) + roundDiv num (den * 2 ^ shift)) infinityWord

end Monkey.Decimal
