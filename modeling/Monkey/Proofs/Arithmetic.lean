import Monkey.Proofs.Evaluation.Answers

/-! # Integer arithmetic

An expression over integer literals has an exact value, unless a divisor is zero. Evaluation finds
this value if it and the values of all expressions below it are integers of the language, and else
fails at the first of them that is not (`Arithmetic.exists_verdict`). What comes first is decided
by the order of evaluation: operands before operations, from left to right.
-/

namespace Monkey

/-- The operations on two integers. -/
inductive Arithmetic.Op
  | add | subtract | multiply | divide
deriving DecidableEq, Repr

/-- Expressions over integer literals. -/
inductive Arithmetic
  | literal (n : Nat)
  | negate (operand : Arithmetic)
  | binary (op : Arithmetic.Op) (left right : Arithmetic)
deriving DecidableEq, Repr

namespace Arithmetic

def Op.toBinaryOp : Op → BinaryOp
  | add => .add
  | subtract => .subtract
  | multiply => .multiply
  | divide => .divide

/-- The operation on whole numbers. Division truncates toward zero. -/
def Op.exact (a b : Int) : Op → Int
  | add => a + b
  | subtract => a - b
  | multiply => a * b
  | divide => a.tdiv b

/-- The tree that a program holds. -/
def toExpr : Arithmetic → Expr
  | literal n => .int (Int64.ofInt n)
  | negate operand => .unary .negate operand.toExpr
  | binary op left right => .binary op.toBinaryOp left.toExpr right.toExpr

/-- The literals, from left to right. -/
def literals : Arithmetic → List Nat
  | literal n => [n]
  | negate operand => operand.literals
  | binary _ left right => left.literals ++ right.literals

/-- The exact value, unless a divisor is zero. -/
def value? : Arithmetic → Option Int
  | literal n => some n
  | negate operand => do return -(← operand.value?)
  | binary op left right => do
    let a ← left.value?
    let b ← right.value?
    if op = .divide ∧ b = 0 then none else some (op.exact a b)

/-- The expression and those below it: operands before operations, from left to right. -/
def subterms : Arithmetic → List Arithmetic
  | literal n => [literal n]
  | negate operand => operand.subterms ++ [negate operand]
  | binary op left right => left.subterms ++ right.subterms ++ [binary op left right]

/-- The value is an integer of the language: it lies between `-2 ^ 63` and `2 ^ 63 - 1`. -/
def Fits (a : Arithmetic) : Prop :=
  ∃ z ∈ a.value?, -9223372036854775808 ≤ z ∧ z ≤ 9223372036854775807

instance (a : Arithmetic) : Decidable a.Fits :=
  inferInstanceAs (Decidable (∃ z ∈ a.value?, _ ∧ _))

/-- The first expression, in the order of evaluation, whose value does not fit. -/
def firstFailure? (a : Arithmetic) : Option Arithmetic :=
  a.subterms.find? fun b => !decide b.Fits

/-- What the expression divides by, if it is a division. -/
def divisor? : Arithmetic → Option Int
  | binary .divide _ right => right.value?
  | _ => none

/-- Why the operation of the expression fails. -/
def fault (a : Arithmetic) : Fault :=
  if a.divisor? = some 0 then .divisionByZero else .overflow

/-- What evaluation comes to: the exact value, or the fault of the first expression whose value does
not fit. -/
inductive Verdict (a : Arithmetic) : Value → Prop
  | exact {n : Int64} (hvalue : a.value? = some n.toInt) (hfits : ∀ b ∈ a.subterms, b.Fits) :
    Verdict a (.integer n)
  | failed {b : Arithmetic} (hfirst : a.firstFailure? = some b) : Verdict a b.fault.toValue

theorem firstFailure?_eq_none {a : Arithmetic} :
    a.firstFailure? = none ↔ ∀ b ∈ a.subterms, b.Fits := by
  simp [firstFailure?]

/-- An expression fails where the first of its parts does that fails. -/
theorem firstFailure?_of_part {a part b : Arithmetic} {before after : List Arithmetic}
    (hbefore : ∀ c ∈ before, c.Fits) (hpart : part.firstFailure? = some b)
    (hsubterms : a.subterms = before ++ part.subterms ++ after) : a.firstFailure? = some b := by
  have hnone : (before.find? fun c => !decide c.Fits) = none := by simpa using hbefore
  rw [firstFailure?] at hpart
  simp only [firstFailure?, hsubterms, List.find?_append, hnone, hpart, Option.none_or,
    Option.some_or]

/-- An operation fails by itself if everything below it fits. -/
theorem firstFailure?_self {a : Arithmetic} {below : List Arithmetic}
    (hsubterms : a.subterms = below ++ [a]) (hbelow : ∀ b ∈ below, b.Fits) (hfails : ¬ a.Fits) :
    a.firstFailure? = some a := by
  have hnone : (below.find? fun c => !decide c.Fits) = none := by simpa using hbelow
  simp [firstFailure?, hsubterms, List.find?_append, hnone, hfails]

/-! ## Operations on integers of the language -/

theorem integer?_eq (z : Int) :
    Number.integer? z =
      if -9223372036854775808 ≤ z ∧ z ≤ 9223372036854775807 then some (Int64.ofInt z)
      else none := by
  change (if -9223372036854775808 ≤ z ∧ z < 9223372036854775808 then _ else _) = _
  simp only [Int.le_iff_lt_add_one (b := 9223372036854775807)]
  rfl

theorem apply_toBinaryOp (op : Op) (n m : Int64) :
    op.toBinaryOp.apply (.integer n) (.integer m) =
      if op = .divide ∧ m.toInt = 0 then .error .divisionByZero
      else checked (op.exact n.toInt m.toInt) := by
  cases op with
  | divide =>
      change (if m.toInt = 0 then _ else _) = _
      simp [Op.exact]
  | _ => rfl

variable {a : Arithmetic} {below : List Arithmetic} {z : Int}

/-- The verdict on an operation with a value, given that everything below it fits. -/
theorem verdict_checked (hsubterms : a.subterms = below ++ [a]) (hbelow : ∀ b ∈ below, b.Fits)
    (hvalue : a.value? = some z) (hdivisor : a.divisor? ≠ some 0) :
    a.Verdict (.ofExcept (checked z)) := by
  rw [checked, integer?_eq]
  by_cases hrange : -9223372036854775808 ≤ z ∧ z ≤ 9223372036854775807
  · rw [if_pos hrange]
    have htoInt : (Int64.ofInt z).toInt = z :=
      Int64.toInt_ofInt_of_le hrange.1 (Int.lt_add_one_of_le hrange.2)
    refine .exact (by rw [hvalue, htoInt]) fun b hb => ?_
    rw [hsubterms, List.mem_append, List.mem_singleton] at hb
    rcases hb with hb | rfl
    · exact hbelow b hb
    · exact ⟨z, hvalue, hrange⟩
  · rw [if_neg hrange]
    have hfails : ¬ a.Fits := by
      rintro ⟨z', hz', hrange'⟩
      rw [hvalue] at hz'
      cases hz'
      exact hrange hrange'
    have hfault : a.fault = .overflow := if_neg hdivisor
    have hverdict : a.Verdict a.fault.toValue :=
      .failed (firstFailure?_self hsubterms hbelow hfails)
    rwa [hfault] at hverdict

/-- The verdict on a division by zero. -/
theorem verdict_divisionByZero (hsubterms : a.subterms = below ++ [a])
    (hbelow : ∀ b ∈ below, b.Fits) (hvalue : a.value? = none) (hdivisor : a.divisor? = some 0) :
    a.Verdict (Fault.toValue .divisionByZero) := by
  have hfails : ¬ a.Fits := by
    rintro ⟨z, hz, -⟩
    rw [hvalue] at hz
    cases hz
  have hfault : a.fault = .divisionByZero := if_pos hdivisor
  have hverdict : a.Verdict a.fault.toValue :=
    .failed (firstFailure?_self hsubterms hbelow hfails)
  rwa [hfault] at hverdict

theorem Verdict.negate {n : Int64} (ha : a.Verdict (.integer n)) :
    a.negate.Verdict (.ofExcept (checked (-n.toInt))) := by
  cases ha with
  | exact hvalue hfits =>
      refine verdict_checked rfl hfits ?_ nofun
      simp [value?, hvalue]

theorem Verdict.binary {left right : Arithmetic} {n m : Int64} (op : Op)
    (hleft : left.Verdict (.integer n)) (hright : right.Verdict (.integer m)) :
    (Arithmetic.binary op left right).Verdict
      (.ofExcept (op.toBinaryOp.apply (.integer n) (.integer m))) := by
  cases hleft with
  | exact hleft hleftFits =>
      cases hright with
      | exact hright hrightFits =>
          have hbelow := List.forall_mem_append.mpr ⟨hleftFits, hrightFits⟩
          rw [apply_toBinaryOp]
          by_cases hzero : op = .divide ∧ m.toInt = 0
          · rw [if_pos hzero]
            obtain ⟨rfl, hm⟩ := hzero
            rw [hm] at hright
            exact verdict_divisionByZero rfl hbelow (by simp [value?, hleft, hright]) hright
          · rw [if_neg hzero]
            refine verdict_checked rfl hbelow (by simp [value?, hleft, hright, hzero]) ?_
            cases op with
            | divide =>
                simpa [divisor?, hright] using hzero
            | _ => exact nofun

theorem Verdict.of_part {part : Arithmetic} {message : String}
    (hpart : part.Verdict (.error message)) (before : List Arithmetic) {after : List Arithmetic}
    (hbefore : ∀ c ∈ before, c.Fits)
    (hsubterms : a.subterms = before ++ part.subterms ++ after) : a.Verdict (.error message) := by
  generalize hvalue : Value.error message = value at hpart ⊢
  cases hpart with
  | exact => cases hvalue
  | failed hfirst => exact .failed (firstFailure?_of_part hbefore hfirst hsubterms)

theorem Verdict.fits {n : Int64} (ha : a.Verdict (.integer n)) : ∀ b ∈ a.subterms, b.Fits := by
  cases ha with
  | exact _ hfits => exact hfits

/-- A value or an error, and nothing else. -/
theorem Verdict.cases_value {value : Value} (ha : a.Verdict value) :
    (∃ n, value = .integer n) ∨ ∃ message, value = .error message := by
  cases ha with
  | exact => exact .inl ⟨_, rfl⟩
  | failed => exact .inr ⟨_, rfl⟩

/-- Evaluation delivers an integer exactly if everything fits, and then the exact value. -/
theorem Verdict.eq_integer_iff {value : Value} (ha : a.Verdict value) (n : Int64) :
    value = .integer n ↔ (∀ b ∈ a.subterms, b.Fits) ∧ a.value? = some n.toInt := by
  constructor
  · rintro rfl
    cases ha with
    | exact hvalue hfits => exact ⟨hfits, hvalue⟩
  · rintro ⟨hfits, hvalue⟩
    cases ha with
    | exact hvalue' =>
        rw [hvalue] at hvalue'
        rw [Int64.toInt_inj.mp (Option.some.inj hvalue')]
    | failed hfirst =>
        rw [firstFailure?_eq_none.mpr hfits] at hfirst
        cases hfirst

/-- The first expression that does not fit decides about the error. -/
theorem Verdict.eq_error {value : Value} (ha : a.Verdict value) {b : Arithmetic}
    (hfirst : a.firstFailure? = some b) :
    value = .error (if b.divisor? = some 0 then "division by zero" else "integer overflow") := by
  cases ha with
  | exact _ hfits =>
      rw [firstFailure?_eq_none.mpr hfits] at hfirst
      cases hfirst
  | failed hfirst' =>
      rw [hfirst] at hfirst'
      cases hfirst'
      rw [fault, Fault.toValue]
      split <;> rfl

/-! ## Evaluation -/

/-- Evaluation comes to the verdict, in every world, and leaves the world as it is. -/
theorem exists_verdict (a : Arithmetic) (hliterals : ∀ n ∈ a.literals, n ≤ 9223372036854775807) :
    ∃ value, a.Verdict value ∧ ∀ (session : Session) (frame : FrameRef) (world : World),
      (session.plan world (.expr frame a.toExpr)).Ends (.one value) world := by
  induction a with
  | literal n =>
      have hn := hliterals n List.mem_cons_self
      have hrange : -9223372036854775808 ≤ (n : Int) ∧ (n : Int) ≤ 9223372036854775807 := by omega
      have hverdict : (literal n).Verdict (.ofExcept (checked n)) :=
        verdict_checked (List.nil_append _).symm nofun rfl nofun
      rw [checked, integer?_eq, if_pos hrange] at hverdict
      exact ⟨_, hverdict, fun _ _ _ => .done⟩
  | negate operand ih =>
      obtain ⟨value, hverdict, hends⟩ := ih hliterals
      obtain ⟨n, rfl⟩ | ⟨message, rfl⟩ := hverdict.cases_value
      · exact ⟨_, hverdict.negate, fun _ _ _ => .call (hends _ _ _) .done⟩
      · exact ⟨_, hverdict.of_part [] nofun rfl, fun _ _ _ => .call (hends _ _ _) .done⟩
  | binary op left right ihleft ihright =>
      obtain ⟨hleftLiterals, hrightLiterals⟩ := List.forall_mem_append.mp hliterals
      obtain ⟨value, hleft, hleftEnds⟩ := ihleft hleftLiterals
      obtain ⟨value', hright, hrightEnds⟩ := ihright hrightLiterals
      obtain ⟨n, rfl⟩ | ⟨message, rfl⟩ := hleft.cases_value
      · obtain ⟨m, rfl⟩ | ⟨message, rfl⟩ := hright.cases_value
        · exact ⟨_, hleft.binary op hright, fun _ _ _ =>
            .call (hleftEnds _ _ _) (.call (hrightEnds _ _ _) .done)⟩
        · exact ⟨_, hright.of_part _ hleft.fits rfl, fun _ _ _ =>
            .call (hleftEnds _ _ _) (.call (hrightEnds _ _ _) .done)⟩
      · exact ⟨_, hleft.of_part [] nofun (List.append_assoc _ _ _), fun _ _ _ =>
          .call (hleftEnds _ _ _) .done⟩

end Arithmetic

end Monkey
