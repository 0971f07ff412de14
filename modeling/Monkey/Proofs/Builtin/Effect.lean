import Monkey.Proofs.Builtin

/-! # What calls of builtin functions do to memory

Three builtin functions change memory, each in its own way: `rest` and `push` create an array, `add`
changes one. A call that fails changes nothing, and `first` and `last` find a value that memory
already holds. All other calls deliver plain values.
-/

namespace Monkey.Builtin

/-- The value of a call that evaluates nothing, and memory after it. -/
inductive Effect (memory : Memory) : Builtin → List Value → Value → Memory → Prop
  | plain {builtin args value} (hvalue : value.IsPlain)
    (hadd : builtin = .add → value.kind = .error) : Effect memory builtin args value memory
  | element {builtin ref value} (hbuiltin : builtin ∈ [first, last])
    (hvalue : value ∈ memory.elements ref) : Effect memory builtin [.array ref] value memory
  | rest {source} :
    Effect memory .rest [.array source]
      (.array (memory.newArray
        ((memory.elements source).extract 1 (memory.elements source).size)).1)
      (memory.newArray ((memory.elements source).extract 1 (memory.elements source).size)).2
  | push {source value} :
    Effect memory .push [.array source, value]
      (.array (memory.newArray ((memory.elements source).push value)).1)
      (memory.newArray ((memory.elements source).push value)).2
  | add {ref value} : Effect memory .add [.array ref, value] .null (memory.append ref value)

section

variable {builtin : Builtin} {args : List Value} {world world' : World}
  {result : Except Fault Value} {evaluate : Program → Eval Value}
  {foreign : String → List Value → Call Value}

theorem effect_throw {fault : Fault}
    (hrun : (throw fault : Call Value).run.run world = some (result, world')) :
    Effect world.memory builtin args (.ofExcept result) world'.memory := by
  cases hrun
  exact .plain trivial fun _ => rfl

theorem effect_of_keeps {call : Call Value}
    (hkeeps : Keeps (· = world.memory) call Value.IsPlain) (hbuiltin : builtin ≠ .add)
    (hrun : call.run.run world = some (result, world')) :
    Effect world.memory builtin args (.ofExcept result) world'.memory := by
  obtain ⟨hmemory, hvalue⟩ := hkeeps world result world' rfl hrun
  rw [hmemory]
  exact .plain (Value.isPlain_ofExcept hvalue) fun hadd => absurd hadd hbuiltin

/-- An element of an array, or nothing if the array has no such element. -/
theorem effect_element {function : String} {value : Value} {select : Array Value → Option Value}
    (hbuiltin : builtin ∈ [first, last])
    (hselect : ∀ elements value, select elements = some value → value ∈ elements)
    (hrun : (do return (select (← Call.elements function value)).getD .null : Call Value).run.run
      world = some (result, world')) :
    Effect world.memory builtin [value] (.ofExcept result) world'.memory := by
  have hadd : builtin ≠ .add := by
    rintro rfl
    simp at hbuiltin
  cases value with
  | array ref =>
      cases hrun
      change Effect world.memory builtin [.array ref]
        ((select (world.memory.elements ref)).getD .null) _
      cases helement : select (world.memory.elements ref) with
      | none => exact .plain trivial fun h => absurd h hadd
      | some element => exact .element hbuiltin (hselect _ _ helement)
  | _ => exact effect_throw hrun

theorem effect_callRest {value : Value}
    (hrun : (callRest value).run.run world = some (result, world')) :
    Effect world.memory .rest [value] (.ofExcept result) world'.memory := by
  cases value with
  | array ref =>
      change (if (world.memory.elements ref).isEmpty then _ else _ : Call Value).run.run world = _
        at hrun
      split at hrun
      · cases hrun
        exact .plain trivial nofun
      · cases hrun
        exact .rest
  | _ => exact effect_throw hrun

theorem effect_push {array value : Value}
    (hrun : (Builtin.call evaluate foreign .push [array, value]).run.run world =
      some (result, world')) :
    Effect world.memory .push [array, value] (.ofExcept result) world'.memory := by
  cases array with
  | array ref =>
      cases hrun
      exact .push
  | _ => exact effect_throw hrun

theorem effect_add {array value : Value}
    (hrun : (Builtin.call evaluate foreign .add [array, value]).run.run world =
      some (result, world')) :
    Effect world.memory .add [array, value] (.ofExcept result) world'.memory := by
  cases array with
  | array ref =>
      cases hrun
      exact .add
  | _ => exact effect_throw hrun

theorem effect_call
    (hrun : (builtin.call (fun _ => failure) (fun name _ => throw (.unbound name)) args).run.run
      world = some (result, world')) :
    Effect world.memory builtin args (.ofExcept result) world'.memory := by
  cases builtin with
  | first =>
      rcases args with _ | ⟨value, _ | _⟩
      exacts [effect_throw hrun,
        effect_element (by simp) (fun _ _ => Array.mem_of_getElem?) hrun, effect_throw hrun]
  | last =>
      rcases args with _ | ⟨value, _ | _⟩
      exacts [effect_throw hrun,
        effect_element (by simp) (fun _ _ => Array.mem_of_back?) hrun, effect_throw hrun]
  | rest =>
      rcases args with _ | ⟨value, _ | _⟩
      exacts [effect_throw hrun, effect_callRest hrun, effect_throw hrun]
  | push =>
      rcases args with _ | ⟨array, _ | ⟨value, _ | _⟩⟩
      exacts [effect_throw hrun, effect_throw hrun, effect_push hrun, effect_throw hrun]
  | add =>
      rcases args with _ | ⟨array, _ | ⟨value, _ | _⟩⟩
      exacts [effect_throw hrun, effect_throw hrun, effect_add hrun, effect_throw hrun]
  | get =>
      cases args with
      | nil =>
          have hfailure (p : Program) :
              Keeps (· = world.memory) (Call.ofEval ((fun _ => failure : Program → Eval Value) p))
                Value.IsPlain :=
            keeps_lift fun _ _ _ _ => nofun
          exact effect_of_keeps (keeps_callGet trivial hfailure) nofun hrun
      | cons _ _ => exact effect_throw hrun
  | foreign name => exact effect_throw hrun
  | _ => exact effect_of_keeps (keeps_plain (by simp)) nofun hrun

end

/-- Every call of a builtin function that evaluates nothing has one of the effects. -/
theorem effect_settle {builtin : Builtin} {args : List Value} {value : Value}
    {world world' : World}
    (hrun : (Eval.settle
      (builtin.call (fun _ => failure) (fun name _ => throw (.unbound name)) args)).run world =
        some (value, world')) :
    Effect world.memory builtin args value world'.memory := by
  rw [run_settle] at hrun
  obtain ⟨⟨result, _⟩, hcall, hvalue⟩ := Option.map_eq_some_iff.mp hrun
  cases hvalue
  exact effect_call hcall

end Monkey.Builtin
