import Mathlib.Data.List.TakeWhile
import Monkey.Decimal.Notation
import Monkey.Proofs.Decimal

/-! # Decimal notation reads back

Digits that were written are read as the number they were written for, with zeros in front of them
or behind, and on both sides of a point.
-/

namespace Monkey.Text

variable {p : Char → Bool} {cs rest : List Char}

/-- A run of characters of one class is cut where the class ends. -/
theorem takeWhile_append_of_boundary (hcs : ∀ c ∈ cs, p c = true)
    (hrest : ∀ c ∈ rest.head?, p c = false) : (cs ++ rest).takeWhile p = cs := by
  rw [List.takeWhile_append_of_pos hcs]
  cases rest with
  | nil => simp
  | cons c rest => simp [hrest c rfl]

theorem dropWhile_append_of_boundary (hcs : ∀ c ∈ cs, p c = true)
    (hrest : ∀ c ∈ rest.head?, p c = false) : (cs ++ rest).dropWhile p = rest := by
  rw [List.dropWhile_append_of_pos hcs]
  cases rest with
  | nil => simp
  | cons c rest => simp [hrest c rfl]

theorem toNat_le_of_isDigit {c : Char} (hc : c.isDigit = true) : c.toNat ≤ 57 := by
  simp only [Char.isDigit, Bool.and_eq_true, decide_eq_true_eq] at hc
  exact UInt32.le_iff_toNat_le.mp hc.2

end Monkey.Text

namespace Monkey.Decimal

-- Powers are those of the definitions, whatever else is in scope.
attribute [local instance (high)] instPowNat

/-! ## Runs of digits -/

/-- The value of digits, by the library's definition. -/
theorem digitsValue_eq (cs : List Char) : digitsValue cs = Nat.ofDigitChars 10 cs 0 := rfl

theorem digitsValue_append (cs ds : List Char) :
    digitsValue (cs ++ ds) = digitsValue cs * 10 ^ ds.length + digitsValue ds := by
  rw [digitsValue_eq, Nat.ofDigitChars_append, Nat.ofDigitChars_eq_ofDigitChars_zero, Nat.mul_comm]
  rfl

theorem digitsValue_replicate_zero (n : Nat) : digitsValue (List.replicate n '0') = 0 := by
  rw [digitsValue_eq, Nat.ofDigitChars_replicate_zero, Nat.mul_zero]

theorem digitsValue_toDigits (n : Nat) : digitsValue (Nat.toDigits 10 n) = n :=
  Nat.ofDigitChars_ten_toDigits

theorem digitsValue_padded (width n : Nat) : digitsValue (padded width n) = n := by
  unfold padded
  rw [digitsValue_append, digitsValue_replicate_zero, digitsValue_toDigits, Nat.zero_mul,
    Nat.zero_add]

theorem length_padded {width n : Nat} (hwidth : 0 < width) (hn : n < 10 ^ width) :
    (padded width n).length = width := by
  have hlength := (Nat.length_toDigits_le_iff (by decide) hwidth).mpr hn
  unfold padded
  rw [List.length_append, List.length_replicate]
  omega

theorem isDigit_of_mem_toDigits {n : Nat} {c : Char} (hc : c ∈ Nat.toDigits 10 n) :
    c.isDigit = true :=
  Nat.isDigit_of_mem_toDigits (by decide) (by decide) hc

theorem isDigit_of_mem_replicate_zero {n : Nat} {c : Char} (hc : c ∈ List.replicate n '0') :
    c.isDigit = true := by
  rw [List.eq_of_mem_replicate hc]
  decide

theorem isDigit_of_mem_padded {width n : Nat} {c : Char} (hc : c ∈ padded width n) :
    c.isDigit = true := by
  rcases List.mem_append.mp hc with hc | hc
  · exact isDigit_of_mem_replicate_zero hc
  · exact isDigit_of_mem_toDigits hc

theorem not_mem_of_forall_isDigit {cs : List Char} (h : ∀ c ∈ cs, c.isDigit = true) : '.' ∉ cs :=
  fun hmem => absurd (h '.' hmem) (by decide)

/-! ## Numbers with a point -/

/-- A digit or more on each side of a point. -/
structure Pointed (cs whole fraction : List Char) : Prop where
  eq : cs = whole ++ '.' :: fraction
  whole_ne_nil : whole ≠ []
  fraction_ne_nil : fraction ≠ []
  isDigit_whole : ∀ c ∈ whole, c.isDigit = true
  isDigit_fraction : ∀ c ∈ fraction, c.isDigit = true

theorem Pointed.read?_eq {cs whole fraction : List Char} (h : Pointed cs whole fraction) :
    read? cs = some ⟨digitsValue (whole ++ fraction), -fraction.length⟩ := by
  have hpoint : ∀ c ∈ ('.' :: fraction).head?, c.isDigit = false := by
    intro c hc
    cases hc
    decide
  have htake : fraction.takeWhile Char.isDigit = fraction :=
    List.takeWhile_eq_self_iff.mpr h.isDigit_fraction
  have hdrop : fraction.dropWhile Char.isDigit = [] :=
    List.dropWhile_eq_nil_iff.mpr h.isDigit_fraction
  unfold read?
  rw [h.eq, Text.takeWhile_append_of_boundary h.isDigit_whole hpoint,
    Text.dropWhile_append_of_boundary h.isDigit_whole hpoint]
  simp [htake, hdrop, h.whole_ne_nil, readExponent?]

/-- The text of a number with a point in it, added at the end if need be. -/
def withPoint (cs : List Char) : List Char :=
  if cs.contains '.' then cs else cs ++ ['.', '0']

/-- Positional notation with a point names a number with the same nearest double. -/
theorem exists_pointed_positional (d : Decimal) : ∃ whole fraction,
    Pointed (withPoint d.positional) whole fraction ∧
      nearestWord ⟨digitsValue (whole ++ fraction), -fraction.length⟩ = d.nearestWord := by
  obtain ⟨n, e | e⟩ := d
  · have hdigits : ∀ c ∈ Nat.toDigits 10 n ++ List.replicate e '0', c.isDigit = true := by
      intro c hc
      rcases List.mem_append.mp hc with hc | hc
      · exact isDigit_of_mem_toDigits hc
      · exact isDigit_of_mem_replicate_zero hc
    have hpoint : withPoint (positional ⟨n, .ofNat e⟩) =
        (Nat.toDigits 10 n ++ List.replicate e '0') ++ '.' :: ['0'] := by
      refine if_neg ?_
      simpa [positional] using not_mem_of_forall_isDigit hdigits
    refine ⟨_, _, ⟨hpoint, by simp, by simp, hdigits, by simp⟩, ?_⟩
    -- the zero behind the point and the zeros before it all move the point
    rw [List.append_assoc, digitsValue_append, digitsValue_toDigits,
      ← List.replicate_one, List.replicate_append_replicate, digitsValue_replicate_zero,
      List.length_replicate, List.length_replicate, Nat.add_zero]
    have hexponent : -((1 : Nat) : Int) = (e : Int) - ((e + 1 : Nat) : Int) := by omega
    rw [hexponent, nearestWord_mul_pow]
    rfl
  · have hscale : 0 < 10 ^ (e + 1) := Nat.pow_pos (by decide)
    have hlength := length_padded (Nat.succ_pos e) (Nat.mod_lt n hscale)
    have hpoint : withPoint (positional ⟨n, .negSucc e⟩) =
        Nat.toDigits 10 (n / 10 ^ (e + 1)) ++ '.' :: padded (e + 1) (n % 10 ^ (e + 1)) := by
      refine if_pos ?_
      simp [positional]
    refine ⟨_, _, ⟨hpoint, by simp, ?_, fun c hc => isDigit_of_mem_toDigits hc,
      fun c hc => isDigit_of_mem_padded hc⟩, ?_⟩
    · intro hnil
      rw [hnil] at hlength
      simp at hlength
    · rw [digitsValue_append, digitsValue_toDigits, digitsValue_padded, hlength, Nat.mul_comm,
        Nat.div_add_mod]
      rfl

end Monkey.Decimal
