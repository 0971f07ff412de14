import Monkey.Decimal

/-!
# The shortest decimal number that rounds to a given double

Grids of multiples of a power of ten are tried from coarse to fine. On each grid the two neighbours
of the double are candidates, and the first candidate whose nearest double is the given one is the
answer: no coarser grid has such a point, so no decimal number with fewer digits has it.
-/

namespace Monkey.Decimal

-- Powers are those of the standard library, whatever else is in scope.
attribute [local instance (high)] instPowNat

/-- The quotient of `units` and `10 ^ e`, both in units of `2 ^ -1074`. -/
def gridQuotient (units : Nat) (e : Int) : Nat × Nat :=
  match e with
  | .ofNat e => (units, 2 ^ (1074 : Nat) * 10 ^ e)
  | .negSucc e => (units * 10 ^ (e + 1), 2 ^ (1074 : Nat))

/-- The neighbours of a magnitude among the multiples of `10 ^ e`, the nearer one first. Of two
equally near ones the larger comes first. -/
def neighbours (units : Nat) (e : Int) : List Decimal :=
  let (num, den) := gridQuotient units e
  let below : Decimal := ⟨num / den, e⟩
  let above : Decimal := ⟨num / den + 1, e⟩
  if 2 * (num % den) < den then [below, above] else [above, below]

/-- The magnitude with all its digits, as a multiple of `10 ^ -1074`. -/
def allDigits (units : Nat) : Decimal :=
  ⟨units * 5 ^ (1074 : Nat), -1074⟩

/-- Tries `count` grids from `10 ^ e` downwards and falls back to all digits. -/
def shortestFrom (word : Nat) : Nat → Int → Decimal
  | 0, _ => allDigits (unitsOfWord word)
  | count + 1, e =>
    match (neighbours (unitsOfWord word) e).find? (·.nearestWord == word) with
    | some d => d
    | none => shortestFrom word count (e - 1)

/-- A power of ten above a magnitude of this many units: `0.30103` is just above the decimal
logarithm of two. -/
def exponentAbove (units : Nat) : Int :=
  ((units.log2 : Int) - 1073) * 30103 / 100000 + 1

/-- The decimal number with the fewest digits whose nearest double has the given finite word, and
of those the nearest. Seventeen digits tell any two doubles apart, so twenty grids suffice. -/
def shortest (word : Nat) : Decimal :=
  if word = 0 then ⟨0, 0⟩ else shortestFrom word 20 (exponentAbove (unitsOfWord word))

end Monkey.Decimal
