import Monkey.Proofs.Evaluation.Custody

/-! # Values that evaluation can know

Evaluation gets hold of no array and no function before it is created and of no builtin function
that is out of reach: it only works with values that it was given, found in memory or has made.
-/

namespace Monkey

/-! ## Arrays and builtin functions -/

/-- The arrays that the value refers to are among the given number of first ones, and a builtin
function is one of those allowed. -/
def Value.Known (allowed : Builtin → Prop) (count : Nat) : Value → Prop
  | .array ref => ref.index < count
  | .builtin b => allowed b
  | .returned value => value.Known allowed count
  | _ => True

/-- All values in memory are known. -/
abbrev Memory.Known (allowed : Builtin → Prop) (memory : Memory) : Prop :=
  memory.Each (·.Known allowed memory.arrays.size) (·.Known allowed memory.arrays.size)

/-- The builtin functions in reach, now and when `get` evaluates a line, are among those
allowed. -/
structure Session.Allows (allowed : Builtin → Prop) (session : Session) : Prop where
  core : ∀ builtin ∈ Builtin.core, allowed builtin
  registry : ∀ builtin ∈ session.registry.entries, allowed builtin

/-- Evaluation keeps to known values. -/
def knowledge (allowed : Builtin → Prop) : Contract where
  requires session task world :=
    session.Closed ∧ session.Allows allowed ∧ world.memory.Known allowed ∧
      ∀ value ∈ task.values, value.Known allowed world.memory.arrays.size
  ensures _ task world result world' :=
    task.Proper result ∧ world.memory.arrays.size ≤ world'.memory.arrays.size ∧
      world'.memory.Known allowed ∧
      ∀ value ∈ result.values, value.Known allowed world'.memory.arrays.size
  moment world values :=
    world.memory.Known allowed ∧ ∀ value ∈ values, value.Known allowed world.memory.arrays.size

section

variable {allowed : Builtin → Prop} {session : Session} {task : Task} {frame : Option FrameRef}
  {world world' : World} {value : Value}

theorem Value.Known.mono {count count' : Nat} (hvalue : value.Known allowed count)
    (hle : count ≤ count') : value.Known allowed count' := by
  induction value with
  | array ref => exact Nat.lt_of_lt_of_le hvalue hle
  | builtin builtin => exact hvalue
  | returned value ih => exact ih hvalue
  | _ => trivial

theorem Value.IsPlain.known (hvalue : value.IsPlain) (count : Nat) :
    value.Known allowed count := by
  cases value with
  | array | builtin | returned => exact hvalue.elim
  | _ => trivial

theorem Session.Allows.standard (hallows : session.Allows allowed) :
    session.standard.Allows allowed :=
  ⟨hallows.core, hallows.core⟩

/-- Evaluation holds known values only. -/
def Custody.known (allowed : Builtin → Prop) : Custody where
  admits session := session.Allows allowed
  size memory := memory.arrays.size
  good count value := value.Known allowed count
  standard := Session.Allows.standard
  builtin hallows hget := hallows.registry _ (List.mem_of_find?_eq_some hget)
  mono := Value.Known.mono
  plain hvalue := hvalue.known _
  returned := Iff.rfl
  bind _ _ _ _ := rfl
  newFrame _ _ := rfl
  append _ _ _ := Array.size_modify
  newArray _ _ := by simp [Memory.newArray, Value.Known]
  newFunction _ _ := ⟨Nat.le_refl _, trivial⟩

theorem Task.Enters.arrays (henters : task.Enters world frame world') :
    world'.memory.arrays = world.memory.arrays := by
  cases henters with
  | stay => rfl
  | call => rfl

theorem Task.Enters.known (henters : task.Enters world frame world')
    (hmemory : world.memory.Known allowed) : world'.memory.Known allowed :=
  (Custody.known allowed).memory_of_enters henters hmemory

end

/-- The evaluator keeps to known values. -/
theorem kept_knowledge (allowed : Builtin → Prop) : (knowledge allowed).Kept :=
  (Custody.known allowed).kept

/-! ## Functions -/

/-- The functions that the value refers to are among the given number of first ones. -/
def Value.Defined (count : Nat) : Value → Prop
  | .function ref => ref.index < count
  | .returned value => value.Defined count
  | _ => True

/-- Evaluation holds no functions but those that memory defines. -/
def Custody.defined : Custody where
  admits _ := True
  size memory := memory.functions.size
  good count value := value.Defined count
  standard := id
  builtin _ _ := trivial
  mono {count count' value} hvalue hle := by
    induction value with
    | function ref => exact Nat.lt_of_lt_of_le hvalue hle
    | returned value ih => exact ih hvalue
    | _ => trivial
  plain {count value} hvalue := by
    cases value with
    | function | returned => exact hvalue.elim
    | _ => trivial
  returned := Iff.rfl
  bind _ _ _ _ := rfl
  newFrame _ _ := rfl
  append _ _ _ := rfl
  newArray _ _ := ⟨Nat.le_refl _, trivial⟩
  newFunction _ _ := by simp [Memory.newFunction, Value.Defined]

end Monkey
