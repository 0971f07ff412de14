/-!
# Character sets given by runs of code points

A character property of the Unicode standard is data: a list of runs of consecutive code points.
Membership asks for a run that covers the character.
-/

namespace Monkey.Text

/-- A set of characters, as inclusive runs of code points in increasing order. -/
abbrev Ranges := List (Nat × Nat)

/-- The character lies in one of the runs. -/
def Ranges.contains (ranges : Ranges) (c : Char) : Bool :=
  ranges.any fun run => run.1 ≤ c.toNat && c.toNat ≤ run.2

theorem Ranges.contains_iff {ranges : Ranges} {c : Char} :
    ranges.contains c = true ↔ ∃ run ∈ ranges, run.1 ≤ c.toNat ∧ c.toNat ≤ run.2 := by
  simp [Ranges.contains]

end Monkey.Text
