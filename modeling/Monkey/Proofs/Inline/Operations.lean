import Monkey.Proofs.Builtin
import Monkey.Proofs.Inline.Unfolding
import Monkey.Session

/-! # Operations on inline values

No operator, test, look-up or builtin function but `add` depends on which arrays are one and the
same: applied in memory and applied to inline values, it delivers the same value.
-/

namespace Monkey

section

variable (memory : Memory) (value : Value)

@[simp] theorem Memory.kind_inline : (memory.inline value).kind = value.kind := by
  cases value with
  | _ => rfl

@[simp] theorem Memory.isAbrupt_inline : (memory.inline value).isAbrupt = value.isAbrupt := by
  cases value with
  | _ => rfl

@[simp] theorem Memory.isTruthy_inline : (memory.inline value).isTruthy = value.isTruthy := by
  cases value with
  | _ => rfl

theorem Memory.unwrapReturn_inline :
    (memory.inline value).unwrapReturn = memory.inline value.unwrapReturn := by
  cases value with
  | _ => rfl

theorem Memory.inline_eq_error_iff {message : String} :
    memory.inline value = .error message ↔ value = .error message := by
  cases value with
  | error => simp [inline, Value.inlineWith]
  | _ => simp [inline, Value.inlineWith]

variable {memory} {value}

theorem Value.IsPlain.inline_eq (hvalue : value.IsPlain) :
    memory.inline value = .ofPlain value := by
  cases value with
  | array | function | builtin | returned => exact hvalue.elim
  | _ => rfl

/-! ## Names -/

namespace Memory

theorem lookupWithin_scopes (memory : Memory) (name : String) (count : Nat) (frame : FrameRef) :
    memory.scopes.lookupWithin name count frame =
      (memory.lookupWithin name count frame).map memory.inline := by
  induction count generalizing frame with
  | zero => rfl
  | succ count ih =>
      rw [Inline.Scopes.lookupWithin, lookupWithin, scopes, Array.getElem?_map]
      cases hframe : memory.frames[frame.index]? with
      | none => rfl
      | some f =>
          simp only [Option.map_some, Option.bind_eq_bind, Option.bind_some, scope]
          cases f.bindings.get? name with
          | some value => rfl
          | none =>
              cases f.outer with
              | none => rfl
              | some outer => exact ih outer

/-- A name means the same in a frame and in its scope. -/
theorem resolve_scopes {session : Session} (hregistry : session.registry = .standard)
    (memory : Memory) (frame : FrameRef) (name : String) :
    memory.scopes.resolve frame name = memory.inline (session.resolve frame name memory) := by
  rw [Inline.Scopes.resolve, Session.resolve, Inline.Scopes.lookup?, lookupWithin_scopes, lookup?,
    hregistry]
  cases memory.lookupWithin name (frame.index + 1) frame with
  | some value => rfl
  | none =>
      cases Registry.standard.get? name with
      | some b => rfl
      | none => rfl

theorem Layered.in_resolve (hlayered : memory.Layered) {session : Session}
    (hregistry : session.registry = .standard) (frame : FrameRef) (name : String) :
    (session.resolve frame name memory).In memory := by
  unfold Session.resolve
  cases hlookup : memory.lookup? frame name with
  | some value => exact hlayered.in_of_lookup? hlookup
  | none =>
      rw [hregistry]
      cases hget : Registry.standard.get? name with
      | some b => exact List.mem_of_find?_eq_some hget
      | none => trivial

end Memory

/-! ## Operators -/

theorem inline_unary (op : UnaryOp) (operand : Value) :
    memory.inline (.ofExcept (op.apply operand)) = .unary op (memory.inline operand) := by
  have hplain : (Value.ofExcept (op.apply operand)).IsPlain :=
    Value.isPlain_ofExcept fun _ => UnaryOp.isPlain_of_apply
  rw [hplain.inline_eq]
  cases op with
  | not =>
      cases operand with
      | _ => rfl
  | negate =>
      cases operand with
      | _ => rfl

theorem ofPlain_getD (result : Option (Except Fault Value)) (fault : Fault) :
    Inline.ofPlain (.ofExcept (result.getD (.error fault))) =
      match result with
      | some result => .ofPlain (.ofExcept result)
      | none => .fault fault := by
  cases result with
  | none => rfl
  | some result => rfl

theorem inline_binary (op : BinaryOp) (left right : Value) :
    memory.inline (.ofExcept (op.apply left right)) =
      .binary op (memory.inline left) (memory.inline right) := by
  have hplain : (Value.ofExcept (op.apply left right)).IsPlain :=
    Value.isPlain_ofExcept fun _ => BinaryOp.isPlain_of_apply
  rw [hplain.inline_eq]
  cases left with
  | integer a =>
      cases right with
      | integer b => exact ofPlain_getD _ _
      | _ => rfl
  | float x =>
      cases right with
      | float y => exact ofPlain_getD _ _
      | _ => rfl
  | boolean a =>
      cases right with
      | boolean b => exact ofPlain_getD _ _
      | _ => rfl
  | string a =>
      cases right with
      | string b => exact ofPlain_getD _ _
      | _ => rfl
  | _ =>
      cases right with
      | _ => rfl

theorem inline_index (hlayered : memory.Layered) {collection index : Value}
    (hcollection : collection.In memory) :
    memory.inline (.ofExcept (memory.index collection index)) =
      .index (memory.inline collection) (memory.inline index) := by
  cases collection with
  | array ref =>
      cases index with
      | integer i =>
          rw [hlayered.inline_array hcollection]
          change _ = Inline.index (.array _) (.integer i)
          unfold Memory.index Inline.index
          simp only [List.getElem?_map, List.length_map, Array.length_toList, Array.getElem?_toList]
          by_cases hsign : 0 ≤ i.toInt
          · simp only [hsign, if_true]
            cases (memory.elements ref)[i.toInt.toNat]? with
            | none => rfl
            | some value => rfl
          · simp only [hsign, if_false]
            rfl
      | _ => rfl
  | _ =>
      cases index with
      | _ => rfl

theorem in_index (hlayered : memory.Layered) (collection index : Value) :
    (Value.ofExcept (memory.index collection index)).In memory := by
  cases hindex : memory.index collection index with
  | error fault => trivial
  | ok value =>
      obtain ⟨ref, -, hvalue⟩ := Memory.mem_elements_of_index hindex
      exact hlayered.in_of_mem_elements hvalue

end

/-! ## Builtin functions -/

/-- The call answers, changes no array and no frame, and its value is as expected. -/
def Settles (world : World) (call : Call Value) (expected : Inline) : Prop :=
  ∃ value memory, (Eval.settle call).run world = some (value, { world with memory }) ∧
    world.memory.Evolves memory ∧ memory.frames = world.memory.frames ∧ value.In memory ∧
    memory.inline value = expected

section

variable {world : World}

theorem settles_throw (hlayered : world.memory.Layered) (fault : Fault) :
    Settles world (throw fault) (.fault fault) :=
  ⟨fault.toValue, world.memory, rfl, hlayered.refl, rfl, trivial, rfl⟩

theorem settles_pure (hlayered : world.memory.Layered) {value : Value}
    (hvalue : value.In world.memory) :
    Settles world (pure value) (world.memory.inline value) :=
  ⟨value, world.memory, rfl, hlayered.refl, rfl, hvalue, rfl⟩

theorem settles_newArray (hlayered : world.memory.Layered) {elements : Array Value}
    (helements : ∀ value ∈ elements, value.In world.memory) :
    Settles world (Call.ofEval (Eval.newArray elements))
      (.array (elements.toList.map world.memory.inline)) :=
  ⟨.array (world.memory.newArray elements).1, (world.memory.newArray elements).2, rfl,
    hlayered.newArray helements, rfl, by simp [Value.Within, Memory.newArray],
    hlayered.inline_newArray helements⟩

theorem settles_elements (hlayered : world.memory.Layered) {value : Value}
    (hvalue : value.In world.memory) {function : String} {next : Array Value → Call Value}
    {f : List Inline → Inline}
    (hnext : ∀ elements, (∀ element ∈ elements, element.In world.memory) →
      Settles world (next elements) (f (elements.toList.map world.memory.inline))) :
    Settles world (Call.elements function value >>= next)
      ((world.memory.inline value).onArray function f) := by
  cases value with
  | array ref =>
      rw [hlayered.inline_array hvalue]
      exact hnext (world.memory.elements ref) fun _ => hlayered.in_of_mem_elements
  | _ => exact settles_throw hlayered _

/-- An element of an array, or nothing if the array has no such element. -/
theorem settles_element (hlayered : world.memory.Layered) {function : String} {value : Value}
    (hvalue : value.In world.memory) {select : Array Value → Option Value}
    {select' : List Inline → Option Inline}
    (hmem : ∀ elements element, select elements = some element → element ∈ elements)
    (hselect : ∀ elements : Array Value,
      select' (elements.toList.map world.memory.inline) =
        (select elements).map world.memory.inline) :
    Settles world (do return (select (← Call.elements function value)).getD .null)
      ((world.memory.inline value).onArray function fun elements =>
        (select' elements).getD .null) := by
  refine settles_elements hlayered hvalue fun elements helements => ?_
  rw [hselect]
  cases hfound : select elements with
  | none => exact settles_pure hlayered trivial
  | some element => exact settles_pure hlayered (helements element (hmem _ _ hfound))

theorem settles_callLen (hlayered : world.memory.Layered) {value : Value}
    (hvalue : value.In world.memory) :
    Settles world (Builtin.callLen value) (world.memory.inline value).len := by
  cases value with
  | string text => exact settles_pure hlayered trivial
  | array ref =>
      rw [hlayered.inline_array hvalue, Inline.len, List.length_map, Array.length_toList]
      exact settles_pure hlayered trivial
  | _ => exact settles_throw hlayered _

theorem settles_string (hlayered : world.memory.Layered) {value : Value}
    (hvalue : value.In world.memory) :
    Settles world (do return .string (← Call.ofEval (Eval.text value)))
      (.string (world.memory.inline value).text) := by
  refine ⟨.string (world.memory.inline value).text, world.memory, ?_, hlayered.refl, rfl, trivial,
    rfl⟩
  have htext : (Call.ofEval (Eval.text value)).run.run world =
      some (.ok (world.memory.inline value).text, world) := by
    change (Except.ok <$> Eval.text value).run world = _
    rw [StateT.run_map, run_text, hlayered.text?_eq hvalue]
    rfl
  rw [run_settle, run_bind, htext]
  rfl

theorem settles_callRest (hlayered : world.memory.Layered) {value : Value}
    (hvalue : value.In world.memory) :
    Settles world (Builtin.callRest value)
      ((world.memory.inline value).onArray "rest" fun elements =>
        if elements.isEmpty then .null else .array elements.tail) := by
  refine settles_elements hlayered hvalue fun elements helements => ?_
  rw [List.isEmpty_map, Array.isEmpty_toList]
  cases elements.isEmpty with
  | true => exact settles_pure hlayered trivial
  | false =>
      have htail : (elements.extract 1 elements.size).toList = elements.toList.tail := by
        rw [Array.toList_extract, List.extract_eq_take_drop, List.drop_one]
        exact List.take_of_length_le (by simp)
      simp only [Bool.false_eq_true, if_false]
      rw [← List.map_tail, ← htail]
      refine settles_newArray hlayered fun element helement => ?_
      obtain ⟨k, hk, rfl⟩ := Array.mem_extract_iff_getElem.mp helement
      exact helements _ (Array.getElem_mem _)

theorem settles_push (hlayered : world.memory.Layered) {array value : Value}
    (harray : array.In world.memory) (hvalue : value.In world.memory) :
    Settles world
      (do
        let elements ← Call.elements "push" array
        Call.ofEval (Eval.newArray (elements.push value)))
      ((world.memory.inline array).onArray "push" fun elements =>
        .array (elements ++ [world.memory.inline value])) := by
  refine settles_elements hlayered harray fun elements helements => ?_
  have happend : elements.toList.map world.memory.inline ++ [world.memory.inline value] =
      (elements.push value).toList.map world.memory.inline := by
    simp
  rw [happend]
  refine settles_newArray hlayered fun element helement => ?_
  rcases Array.mem_push.mp helement with hmem | rfl
  · exact helements element hmem
  · exact hvalue

theorem settles_argumentCount (hlayered : world.memory.Layered) (expected : Nat)
    (args : List Value) :
    Settles world (throw (.argumentCount expected args.length))
      (.fault (.argumentCount expected (args.map world.memory.inline).length)) := by
  rw [List.length_map]
  exact settles_throw hlayered _

/-- The standard functions but `add` always answer, and answer as they do inline. -/
theorem exists_settles_call (hlayered : world.memory.Layered) {builtin : Builtin}
    (hcore : builtin ∈ Builtin.core) (hadd : builtin ≠ .add) {args : List Value}
    (hargs : ∀ arg ∈ args, arg.In world.memory) (evaluate : Program → Eval Value)
    (foreign : String → List Value → Call Value) :
    ∃ expected, Inline.call builtin (args.map world.memory.inline) = some expected ∧
      Settles world (builtin.call evaluate foreign args) expected := by
  have hcount := settles_argumentCount hlayered builtin.arity args
  cases builtin with
  | len =>
      rcases args with _ | ⟨value, _ | _⟩
      exacts [⟨_, rfl, hcount⟩, ⟨_, rfl, settles_callLen hlayered (hargs value (by simp))⟩,
        ⟨_, rfl, hcount⟩]
  | string =>
      rcases args with _ | ⟨value, _ | _⟩
      exacts [⟨_, rfl, hcount⟩, ⟨_, rfl, settles_string hlayered (hargs value (by simp))⟩,
        ⟨_, rfl, hcount⟩]
  | first =>
      have hhead (elements : Array Value) : (elements.toList.map world.memory.inline).head? =
          elements[0]?.map world.memory.inline := by
        rw [List.head?_map, List.head?_eq_getElem?, Array.getElem?_toList]
      rcases args with _ | ⟨value, _ | _⟩
      exacts [⟨_, rfl, hcount⟩, ⟨_, rfl, settles_element hlayered (hargs value (by simp))
        (fun _ _ => Array.mem_of_getElem?) hhead⟩, ⟨_, rfl, hcount⟩]
  | last =>
      have hlast (elements : Array Value) : (elements.toList.map world.memory.inline).getLast? =
          elements.back?.map world.memory.inline := by
        rw [List.getLast?_map, Array.getLast?_toList]
      rcases args with _ | ⟨value, _ | _⟩
      exacts [⟨_, rfl, hcount⟩, ⟨_, rfl, settles_element hlayered (hargs value (by simp))
        (fun _ _ => Array.mem_of_back?) hlast⟩, ⟨_, rfl, hcount⟩]
  | rest =>
      rcases args with _ | ⟨value, _ | _⟩
      exacts [⟨_, rfl, hcount⟩, ⟨_, rfl, settles_callRest hlayered (hargs value (by simp))⟩,
        ⟨_, rfl, hcount⟩]
  | push =>
      rcases args with _ | ⟨array, _ | ⟨value, _ | _⟩⟩
      exacts [⟨_, rfl, hcount⟩, ⟨_, rfl, hcount⟩,
        ⟨_, rfl, settles_push hlayered (hargs array (by simp)) (hargs value (by simp))⟩,
        ⟨_, rfl, hcount⟩]
  | add => exact absurd rfl hadd
  | _ => simp [Builtin.core] at hcore

end

end Monkey
