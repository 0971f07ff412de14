import Monkey.Proofs.Evaluation.Levels

/-! # Values in custody

Evaluation works with values that it was given, found in memory or has made, and with the builtin
functions in reach. A property that all of these have is one of every value that it ever holds
(`Custody.kept`).
-/

namespace Monkey

/-- A property of the values that evaluation holds. It may depend on the size of a table of memory,
which only grows. -/
structure Custody where
  /-- The sessions that may evaluate. -/
  admits : Session → Prop
  size : Memory → Nat
  good : Nat → Value → Prop
  standard : ∀ {session}, admits session → admits session.standard
  builtin : ∀ {session name b count}, admits session →
    session.registry.get? name = some b → good count (.builtin b)
  mono : ∀ {count count' value}, good count value → count ≤ count' → good count' value
  plain : ∀ {count value}, value.IsPlain → good count value
  returned : ∀ {count value}, good count (.returned value) ↔ good count value
  bind : ∀ memory frame name value, size (memory.bind frame name value) = size memory
  newFrame : ∀ memory outer, size (memory.newFrame outer).2 = size memory
  append : ∀ memory ref value, size (memory.append ref value) = size memory
  newArray : ∀ memory elements, size memory ≤ size (memory.newArray elements).2 ∧
    good (size (memory.newArray elements).2) (.array (memory.newArray elements).1)
  newFunction : ∀ memory function, size memory ≤ size (memory.newFunction function).2 ∧
    good (size (memory.newFunction function).2) (.function (memory.newFunction function).1)

namespace Custody

/-- All values in memory are good. -/
abbrev memory (custody : Custody) (memory : Memory) : Prop :=
  memory.Each (custody.good (custody.size memory)) (custody.good (custody.size memory))

/-- Evaluation keeps to good values. -/
def contract (custody : Custody) : Contract where
  requires session task world :=
    session.Closed ∧ custody.admits session ∧ custody.memory world.memory ∧
      ∀ value ∈ task.values, custody.good (custody.size world.memory) value
  ensures _ task world result world' :=
    task.Proper result ∧ custody.size world.memory ≤ custody.size world'.memory ∧
      custody.memory world'.memory ∧
      ∀ value ∈ result.values, custody.good (custody.size world'.memory) value
  moment world values :=
    custody.memory world.memory ∧ ∀ value ∈ values, custody.good (custody.size world.memory) value

variable {custody : Custody} {session session' : Session} {task part : Task}
  {frame : Option FrameRef} {seen : List Value} {memory memory' : Memory} {world world' : World}
  {value : Value}

theorem good_of_from (hfrom : value.From session frame memory seen)
    (hsession : custody.admits session)
    (hmemory : custody.memory memory)
    (hseen : ∀ value ∈ seen, custody.good (custody.size memory) value) :
    custody.good (custody.size memory) value := by
  cases hfrom with
  | seen hvalue => exact hseen _ hvalue
  | plain hvalue => exact custody.plain hvalue
  | builtin hget => exact custody.builtin hsession hget
  | bound _ hlookup =>
      obtain ⟨place, f, hframe, hget⟩ := Memory.bound_of_lookupWithin hlookup
      exact hmemory.bound hframe hget
  | element _ hvalue => exact hmemory.of_mem_elements hvalue
  | carried hreturned => exact custody.returned.mp (hseen _ hreturned)

theorem memory_bind (hmemory : custody.memory memory) (place : FrameRef) (name : String)
    (hvalue : custody.good (custody.size memory) value) :
    custody.memory (memory.bind place name value) := by
  rw [Custody.memory, custody.bind]
  exact hmemory.bind place name hvalue

/-- The new array is good from now on. -/
theorem memory_newArray (hmemory : custody.memory memory) {elements : Array Value}
    (helements : ∀ value ∈ elements, custody.good (custody.size memory) value) :
    custody.size memory ≤ custody.size (memory.newArray elements).2 ∧
      custody.memory (memory.newArray elements).2 ∧
      custody.good (custody.size (memory.newArray elements).2)
        (.array (memory.newArray elements).1) := by
  obtain ⟨hle, harray⟩ := custody.newArray memory elements
  exact ⟨hle, (hmemory.newArray helements).mono (fun _ h => custody.mono h hle)
    fun _ h => custody.mono h hle, harray⟩

theorem memory_newFunction (hmemory : custody.memory memory) (function : Function) :
    custody.size memory ≤ custody.size (memory.newFunction function).2 ∧
      custody.memory (memory.newFunction function).2 ∧
      custody.good (custody.size (memory.newFunction function).2)
        (.function (memory.newFunction function).1) := by
  obtain ⟨hle, hfunction⟩ := custody.newFunction memory function
  exact ⟨hle, (hmemory.newFunction function).mono (fun _ h => custody.mono h hle)
    fun _ h => custody.mono h hle, hfunction⟩

theorem memory_append (hmemory : custody.memory memory) (ref : ArrayRef)
    (hvalue : custody.good (custody.size memory) value) :
    custody.memory (memory.append ref value) := by
  rw [Custody.memory, custody.append]
  exact hmemory.append ref hvalue

theorem memory_of_effect {builtin : Builtin} {args : List Value}
    (heffect : Builtin.Effect memory builtin args value memory') (hmemory : custody.memory memory)
    (hargs : ∀ arg ∈ args, custody.good (custody.size memory) arg) :
    custody.size memory ≤ custody.size memory' ∧ custody.memory memory' ∧
      custody.good (custody.size memory') value := by
  cases heffect with
  | plain hvalue => exact ⟨Nat.le_refl _, hmemory, custody.plain hvalue⟩
  | element _ hvalue => exact ⟨Nat.le_refl _, hmemory, hmemory.of_mem_elements hvalue⟩
  | rest =>
      refine memory_newArray hmemory fun element helement => ?_
      obtain ⟨k, hk, rfl⟩ := Array.mem_extract_iff_getElem.mp helement
      exact hmemory.of_mem_elements (Array.getElem_mem _)
  | push =>
      refine memory_newArray hmemory fun element helement => ?_
      rcases Array.mem_push.mp helement with hmem | rfl
      · exact hmemory.of_mem_elements hmem
      · exact hargs element (by simp)
  | @add ref value =>
      exact ⟨Nat.le_of_eq (custody.append memory ref value).symm,
        memory_append hmemory ref (hargs value (by simp)), custody.plain trivial⟩

theorem memory_of_does {result : Result}
    (hdoes : task.Does session frame world seen result world') (hclosed : session.Closed)
    (hsession : custody.admits session) (hmemory : custody.memory world.memory)
    (htask : ∀ value ∈ task.values, custody.good (custody.size world.memory) value)
    (hseen : ∀ value ∈ seen, custody.good (custody.size world.memory) value) :
    custody.size world.memory ≤ custody.size world'.memory ∧ custody.memory world'.memory ∧
      ∀ value ∈ result.values, custody.good (custody.size world'.memory) value := by
  cases hdoes with
  | deliver _ hvalue =>
      refine ⟨Nat.le_refl _, hmemory, ?_⟩
      simpa [Result.values] using good_of_from hvalue hsession hmemory hseen
  | many hvalues =>
      exact ⟨Nat.le_refl _, hmemory, fun value hvalue => hseen value (hvalues value hvalue)⟩
  | ret hvalue =>
      refine ⟨Nat.le_refl _, hmemory, ?_⟩
      simpa [Result.values] using custody.returned.mpr (hseen _ hvalue)
  | array _ _ hvalues =>
      simpa [Result.values] using
        memory_newArray hmemory fun value hvalue => hseen value (hvalues value hvalue)
  | function => simpa [Result.values] using memory_newFunction hmemory _
  | @bind place name _ value hvalue =>
      refine ⟨Nat.le_of_eq (custody.bind world.memory place name value).symm,
        memory_bind hmemory place name (hseen value hvalue), ?_⟩
      have hnull : Value.null.IsPlain := trivial
      simpa [Result.values] using custody.plain hnull
  | builtin hrun =>
      simpa [Result.values] using memory_of_effect (hclosed.effect hrun) hmemory
        fun arg harg => htask arg (List.mem_cons_of_mem _ harg)

theorem requires_of_hands
    (hhands : task.Hands session frame world seen session' part world') (hsession : session.Closed)
    (hadmits : custody.admits session) (hmemory : custody.memory world.memory)
    (hseen : ∀ value ∈ seen, custody.good (custody.size world.memory) value) :
    custody.contract.requires session' part world' := by
  have hmemory' : custody.memory world'.memory := hhands.memory_eq ▸ hmemory
  cases hhands with
  | part hpart =>
      exact ⟨hsession, hadmits, hmemory', fun value hvalue =>
        good_of_from (hpart.from hvalue) hadmits hmemory hseen⟩
  | line => exact ⟨hsession.standard, custody.standard hadmits, hmemory', nofun⟩

theorem meets_of_local {plan : Plan} {start : World}
    (hlocal : plan.Local session task frame seen world) (hsession : session.Closed)
    (hadmits : custody.admits session) (hmemory : custody.memory world.memory)
    (hstart : custody.size start.memory ≤ custody.size world.memory)
    (htask : ∀ value ∈ task.values, custody.good (custody.size world.memory) value)
    (hseen : ∀ value ∈ seen, custody.good (custody.size world.memory) value) :
    plan.Meets custody.contract (custody.contract.ensures session task start) := by
  induction plan generalizing seen world with
  | done result world' =>
      obtain ⟨hle, hmemory', hvalues⟩ :=
        memory_of_does hlocal.does hsession hadmits hmemory htask hseen
      exact ⟨⟨hmemory', hvalues⟩, hlocal.does.proper, Nat.le_trans hstart hle, hmemory', hvalues⟩
  | stuck => trivial
  | pass _ next ih =>
      obtain ⟨-, rfl, place, name, value, -, hvalue, hnext⟩ := hlocal.of_pass
      have hbound := memory_bind hmemory place name (hseen value hvalue)
      refine ⟨⟨hmemory, nofun⟩, ih hnext hbound ?_ ?_ ?_⟩
      · rwa [custody.bind]
      · rwa [custody.bind]
      · rwa [custody.bind]
  | call session' part world' next ih =>
      obtain ⟨hhands, hcase⟩ := hlocal.of_call
      have hrequires := requires_of_hands hhands hsession hadmits hmemory hseen
      refine ⟨⟨hrequires.2.2.1, hrequires.2.2.2⟩, hrequires, ?_⟩
      rintro result after ⟨hproper, hle, hmemory', hvalues⟩
      rw [hhands.memory_eq] at hle
      rcases hcase with ⟨hrelays, rfl⟩ | ⟨-, -, hafter⟩
      · exact ⟨⟨hmemory', hvalues⟩, hrelays.proper hproper, Nat.le_trans hstart hle, hmemory',
          hvalues⟩
      · refine ih result after (hafter result after hproper) hmemory' (Nat.le_trans hstart hle)
          (fun value hvalue => custody.mono (htask value hvalue) hle) ?_
        intro value hvalue
        rcases List.mem_append.mp hvalue with hmem | hmem
        · exact hvalues value hmem
        · exact custody.mono (hseen value hmem) hle

theorem size_of_enters (henters : task.Enters world frame world') :
    custody.size world'.memory = custody.size world.memory := by
  cases henters with
  | stay => rfl
  | call => exact custody.newFrame world.memory _

theorem memory_of_enters (henters : task.Enters world frame world')
    (hmemory : custody.memory world.memory) : custody.memory world'.memory := by
  rw [Custody.memory, size_of_enters henters]
  cases henters with
  | stay => exact hmemory
  | call => exact hmemory.newFrame _

/-- The evaluator keeps to good values. -/
theorem kept (custody : Custody) : custody.contract.Kept := by
  rintro session task world ⟨hsession, hadmits, hmemory, hvalues⟩
  obtain ⟨frame, entered, henters, hlocal⟩ := session.plan_local task world
  have hsize : custody.size entered.memory = custody.size world.memory := size_of_enters henters
  rw [← hsize] at hvalues
  exact meets_of_local hlocal hsession hadmits (memory_of_enters henters hmemory)
    (Nat.le_of_eq hsize.symm) hvalues fun value hvalue =>
      hvalues value (task.given_subset_values value hvalue)

end Custody

end Monkey
