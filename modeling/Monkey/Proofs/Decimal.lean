import Mathlib.Tactic.Common
import Monkey.Decimal.Shortest

/-! # Rounding decimal numbers to doubles

Rounding depends on the value of a decimal number only, not on how the number is split into digits
and an exponent, and it gives every finite double back from the shortest decimal number near it.
-/

namespace Monkey.Decimal

-- Powers are those of the definitions, whatever else is in scope.
attribute [local instance (high)] instPowNat

/-! ## Rounded quotients -/

theorem roundDiv_mul_left {k num den : Nat} (hk : 0 < k) :
    roundDiv (k * num) (k * den) = roundDiv num den := by
  have hquotient : k * num / (k * den) = num / den := Nat.mul_div_mul_left _ _ hk
  have hremainder : 2 * (k * num % (k * den)) = k * (2 * (num % den)) := by
    rw [Nat.mul_mod_mul_left]
    ac_rfl
  unfold roundDiv
  simp only [hquotient, hremainder, Nat.mul_lt_mul_left hk]

theorem roundDiv_mul_self {n den : Nat} (hden : 0 < den) : roundDiv (n * den) den = n := by
  simp [roundDiv, hden]

theorem wordOfUnits_mul_left {k num den : Nat} (hk : 0 < k) :
    wordOfUnits (k * num) (k * den) = wordOfUnits num den := by
  unfold wordOfUnits
  simp only [Nat.mul_div_mul_left _ _ hk, Nat.mul_assoc, roundDiv_mul_left hk]

/-- A finite magnitude is its own nearest double. -/
theorem wordOfUnits_unitsOfWord {word den : Nat} (hword : word < infinityWord) (hden : 0 < den) :
    wordOfUnits (unitsOfWord word * den) den = word := by
  unfold wordOfUnits
  rw [Nat.mul_div_cancel _ hden]
  by_cases hsmall : word < 2 ^ 53
  · have hunits : unitsOfWord word = word := if_pos hsmall
    have hshift : word.log2 - 52 = 0 := by
      rw [Nat.sub_eq_zero_iff_le]
      by_cases hzero : word = 0
      · simp [hzero]
      · exact Nat.le_of_lt_succ ((Nat.log2_lt hzero).mpr hsmall)
    simp only [hunits, hshift, Nat.pow_zero, Nat.mul_one, Nat.zero_mul, Nat.zero_add]
    rw [roundDiv_mul_self hden]
    exact Nat.min_eq_left (Nat.le_of_lt hword)
  · -- the exponent field is at least two, and scaling cancels in the quotient
    have hunits : unitsOfWord word = (2 ^ 52 + word % 2 ^ 52) * 2 ^ (word / 2 ^ 52 - 1) :=
      if_neg hsmall
    have hfraction : word % 2 ^ 52 < 2 ^ 52 := Nat.mod_lt _ (by decide)
    have hlog : (unitsOfWord word).log2 = 52 + (word / 2 ^ 52 - 1) := by
      have hpos : 0 < 2 ^ (word / 2 ^ 52 - 1) := Nat.pow_pos (by decide)
      rw [hunits, Nat.log2_eq_iff (Nat.ne_of_gt (Nat.mul_pos (by omega) hpos))]
      constructor
      · rw [Nat.pow_add]
        exact Nat.mul_le_mul_right _ (by omega)
      · rw [Nat.add_right_comm, Nat.pow_add]
        exact Nat.mul_lt_mul_of_pos_right (by omega) hpos
    have hshift : (unitsOfWord word).log2 - 52 = word / 2 ^ 52 - 1 := by omega
    have hround : roundDiv (unitsOfWord word * den) (den * 2 ^ (word / 2 ^ 52 - 1)) =
        2 ^ 52 + word % 2 ^ 52 := by
      rw [hunits, Nat.mul_comm den, Nat.mul_assoc]
      exact roundDiv_mul_self (Nat.mul_pos (Nat.pow_pos (by decide)) hden)
    have hsplit : (word / 2 ^ 52 - 1) * 2 ^ 52 + (2 ^ 52 + word % 2 ^ 52) = word := by omega
    simp only [hshift, hround, hsplit]
    exact Nat.min_eq_left (Nat.le_of_lt hword)

/-! ## Digits and exponents -/

theorem digitCount_mul_ten {n : Nat} (hn : n ≠ 0) : digitCount (n * 10) = digitCount n + 1 := by
  unfold digitCount
  rw [Nat.toDigits_of_base_le (by decide) (by omega)]
  simp

/-- Numbers in range are rounded by their units. -/
theorem nearestWord_eq_wordOfUnits {d : Decimal} (hdigits : d.digits ≠ 0)
    (hle : (digitCount d.digits : Int) + d.exponent ≤ 310)
    (hge : -330 ≤ (digitCount d.digits : Int) + d.exponent) :
    d.nearestWord = wordOfUnits d.units.1 d.units.2 := by
  unfold nearestWord
  dsimp only
  rw [if_neg hdigits, if_neg (Int.not_lt.mpr hle), if_neg (Int.not_lt.mpr hge)]

/-- Moving the point scales both sides of the quotient. -/
theorem exists_units_mul_ten (n : Nat) (e : Int) : ∃ k, 0 < k ∧
    units ⟨n * 10, e - 1⟩ = (k * (units ⟨n, e⟩).1, k * (units ⟨n, e⟩).2) := by
  unfold units
  -- the power is hidden, or the unifier would compute it
  generalize 2 ^ 1074 = unit
  rcases e with ((_ | e) | e)
  · refine ⟨10, by decide, Prod.ext ?_ rfl⟩
    change n * 10 * unit = 10 * (n * 1 * unit)
    rw [Nat.mul_one, Nat.mul_comm n, Nat.mul_assoc]
  · refine ⟨1, by decide, ?_⟩
    have he : Int.ofNat (e + 1) - 1 = Int.ofNat e := by simp
    rw [he]
    simp only [Nat.one_mul, Nat.pow_succ', Nat.mul_assoc]
  · refine ⟨10, by decide, Prod.ext ?_ ?_⟩
    · change n * 10 * unit = 10 * (n * unit)
      rw [Nat.mul_comm n, Nat.mul_assoc]
    · exact Nat.pow_succ'

/-- Moving the point does not change the value. -/
theorem nearestWord_mul_ten (n : Nat) (e : Int) :
    nearestWord ⟨n * 10, e - 1⟩ = nearestWord ⟨n, e⟩ := by
  by_cases hn : n = 0
  · simp [nearestWord, hn]
  · have hten : n * 10 ≠ 0 := by omega
    have hmagnitude : ((digitCount (n * 10) : Nat) : Int) + (e - 1) = digitCount n + e := by
      rw [digitCount_mul_ten hn]
      omega
    obtain ⟨k, hk, hunits⟩ := exists_units_mul_ten n e
    simp only [nearestWord, hn, hten, hmagnitude, hunits, wordOfUnits_mul_left hk]

theorem nearestWord_mul_pow (n k : Nat) (e : Int) :
    nearestWord ⟨n * 10 ^ k, e - k⟩ = nearestWord ⟨n, e⟩ := by
  induction k with
  | zero => simp
  | succ k ih =>
      have hexponent : e - ((k + 1 : Nat) : Int) = e - k - 1 := by omega
      rw [hexponent, Nat.pow_succ, ← Nat.mul_assoc, nearestWord_mul_ten, ih]

/-! ## The shortest decimal number -/

theorem unitsOfWord_pos {word : Nat} (hword : word ≠ 0) : 0 < unitsOfWord word := by
  unfold unitsOfWord
  split
  · omega
  · exact Nat.mul_pos (by omega) (Nat.pow_pos (by decide))

theorem unitsOfWord_lt {word : Nat} (hword : word < infinityWord) :
    unitsOfWord word < 2 ^ (2098 : Nat) := by
  have hscale : ∀ n, n < 2046 → 2 ^ 53 * 2 ^ n ≤ 2 ^ 2098 := by
    intro n hn
    rw [← Nat.pow_add]
    exact Nat.pow_le_pow_right (by decide) (by omega)
  unfold unitsOfWord
  split
  next hsmall => exact Nat.lt_of_lt_of_le (by omega) (hscale 0 (by decide))
  next hlarge =>
    have hfraction : word % 2 ^ 52 < 2 ^ 52 := Nat.mod_lt _ (by decide)
    have hfield : word / 2 ^ 52 < 2047 := Nat.div_lt_of_lt_mul (by rwa [Nat.mul_comm])
    refine Nat.lt_of_lt_of_le ?_ (hscale (word / 2 ^ 52 - 1) (by omega))
    exact Nat.mul_lt_mul_of_pos_right (by omega) (Nat.pow_pos (by decide))

/-- All digits of a finite magnitude name that magnitude exactly. -/
theorem nearestWord_allDigits {word : Nat} (hzero : word ≠ 0) (hword : word < infinityWord) :
    (allDigits (unitsOfWord word)).nearestWord = word := by
  have hpos := unitsOfWord_pos hzero
  have hlt := unitsOfWord_lt hword
  have hfive : 0 < 5 ^ 1074 := Nat.pow_pos (by decide)
  have hdigits : (allDigits (unitsOfWord word)).digits ≠ 0 := Nat.ne_of_gt (Nat.mul_pos hpos hfive)
  -- The next two bounds put the number into the range in which `nearestWord` looks at the units.
  have hfew : digitCount (unitsOfWord word * 5 ^ 1074) ≤ 1384 := by
    refine (Nat.length_toDigits_le_iff (by decide) (by decide)).mpr ?_
    have hbound : 2 ^ (2098 : Nat) * 5 ^ 1074 ≤ 10 ^ 1384 := by decide +kernel
    exact Nat.lt_of_lt_of_le (Nat.mul_lt_mul_of_pos_right hlt hfive) hbound
  have hmany : 744 < digitCount (unitsOfWord word * 5 ^ 1074) := by
    refine Nat.lt_of_not_le fun hle => ?_
    have hsmall := (Nat.length_toDigits_le_iff (by decide) (by decide)).mp hle
    have hbound : 10 ^ 744 ≤ 1 * 5 ^ 1074 := by decide +kernel
    have hscaled : 1 * 5 ^ 1074 ≤ unitsOfWord word * 5 ^ 1074 := Nat.mul_le_mul_right _ hpos
    omega
  have hunits : (allDigits (unitsOfWord word)).units =
      (unitsOfWord word * 10 ^ 1074, 10 ^ 1074) := by
    have hten : (10 : Nat) ^ 1074 = 5 ^ 1074 * 2 ^ 1074 := by decide +kernel
    change (unitsOfWord word * 5 ^ 1074 * 2 ^ 1074, 10 ^ (1073 + 1)) = _
    rw [hten, Nat.mul_assoc]
  have hround : wordOfUnits (allDigits (unitsOfWord word)).units.1
      (allDigits (unitsOfWord word)).units.2 = word := by
    rw [hunits]
    exact wordOfUnits_unitsOfWord hword (Nat.pow_pos (by decide))
  have hmagnitude : (digitCount (allDigits (unitsOfWord word)).digits : Int) +
      (allDigits (unitsOfWord word)).exponent =
        digitCount (unitsOfWord word * 5 ^ 1074) - 1074 := rfl
  rw [nearestWord_eq_wordOfUnits hdigits, hround]
  · rw [hmagnitude]
    omega
  · rw [hmagnitude]
    omega

theorem nearestWord_shortestFrom {word : Nat} (hzero : word ≠ 0) (hword : word < infinityWord)
    (count : Nat) (e : Int) : (shortestFrom word count e).nearestWord = word := by
  induction count generalizing e with
  | zero => exact nearestWord_allDigits hzero hword
  | succ count ih =>
      rw [shortestFrom]
      split
      next d hfound =>
        have hd := List.find?_some hfound
        exact beq_iff_eq.mp hd
      next => exact ih (e - 1)

/-- The shortest decimal number of a finite double rounds to that double. -/
theorem nearestWord_shortest {word : Nat} (hword : word < infinityWord) :
    (shortest word).nearestWord = word := by
  unfold shortest
  split
  next hzero => simp [nearestWord, hzero]
  next hzero => exact nearestWord_shortestFrom hzero hword _ _

end Monkey.Decimal
