import Mathlib.Tactic.Common
import Monkey.Memory
import Monkey.Operator

/-! # Memory and control flow

Errors and pending returns are values, but they are there to end evaluations and not to be kept.
In a well-formed memory no name is bound to either and no array has a pending return among its
elements; an array may hold errors, since a loop hands the error of its body over in this way.
-/

namespace Monkey

namespace Value

/-- A pending return carries a value that is neither an error nor a pending return itself. -/
def Unnested (value : Value) : Prop :=
  ∀ carried, value = .returned carried → carried.isAbrupt = false

theorem unnested_of_isAbrupt {value : Value} (hvalue : value.isAbrupt = false) :
    value.Unnested := by
  rintro carried rfl
  cases hvalue

theorem kind_ne_returned_of_isAbrupt {value : Value} (hvalue : value.isAbrupt = false) :
    value.kind ≠ .returned := by
  cases value with
  | returned carried => cases hvalue
  | _ => exact Kind.noConfusion

theorem Unnested.singleton {value : Value} (hvalue : value.Unnested) :
    ∀ element ∈ [value], element.Unnested := by
  intro element helement
  cases List.mem_singleton.mp helement
  exact hvalue

theorem isAbrupt_of_mem_push {elements : Array Value} {value : Value}
    (helements : ∀ element ∈ elements, element.isAbrupt = false)
    (hvalue : value.isAbrupt = false) :
    ∀ element ∈ elements.push value, element.isAbrupt = false := by
  intro element helement
  rcases Array.mem_push.mp helement with hmem | rfl
  · exact helements element hmem
  · exact hvalue

theorem unnested_of_kind {value : Value} (hvalue : value.kind ≠ .returned) : value.Unnested := by
  rintro carried rfl
  exact absurd rfl hvalue

theorem Unnested.unwrapReturn {value : Value} (hvalue : value.Unnested) :
    value.unwrapReturn.kind ≠ .returned := by
  cases value with
  | returned carried => exact kind_ne_returned_of_isAbrupt (hvalue carried rfl)
  | _ => exact Kind.noConfusion

theorem ofExcept_kind_ne_returned {result : Except Fault Value}
    (hresult : ∀ value, result = .ok value → value.kind ≠ .returned) :
    (Value.ofExcept result).kind ≠ .returned := by
  cases result with
  | ok value => exact hresult value rfl
  | error fault => exact Kind.noConfusion

end Value

/-! ## Results of operators -/

section

variable {value : Value}

/-- The value refers to nothing in memory, to no builtin function and to no other value. -/
def Value.IsPlain : Value → Prop
  | .array _ | .function _ | .builtin _ | .returned _ => False
  | _ => True

theorem Value.IsPlain.kind_ne_returned (hvalue : value.IsPlain) : value.kind ≠ .returned := by
  cases value with
  | returned carried => exact hvalue.elim
  | _ => exact Value.Kind.noConfusion

theorem Value.isPlain_ofExcept {result : Except Fault Value}
    (hresult : ∀ value, result = .ok value → value.IsPlain) :
    (Value.ofExcept result).IsPlain := by
  cases result with
  | ok value => exact hresult value rfl
  | error fault => exact trivial

theorem isPlain_of_checked {n : Int} (hchecked : checked n = .ok value) : value.IsPlain := by
  unfold checked at hchecked
  split at hchecked
  · cases hchecked
    trivial
  · cases hchecked

theorem UnaryOp.isPlain_of_apply {op : UnaryOp} {operand : Value}
    (happly : op.apply operand = .ok value) : value.IsPlain := by
  unfold UnaryOp.apply at happly
  split at happly
  · cases happly
    trivial
  · exact isPlain_of_checked happly
  · cases happly
    trivial
  · cases happly

theorem BinaryOp.isPlain_of_onIntegers? {op : BinaryOp} {a b : Int}
    (hresult : op.onIntegers? a b = some (.ok value)) : value.IsPlain := by
  cases op with
  | add => exact isPlain_of_checked (Option.some.inj hresult)
  | subtract => exact isPlain_of_checked (Option.some.inj hresult)
  | multiply => exact isPlain_of_checked (Option.some.inj hresult)
  | divide =>
      have hvalue := Option.some.inj hresult
      split at hvalue
      · cases hvalue
      · exact isPlain_of_checked hvalue
  | and => cases hresult
  | or => cases hresult
  | _ =>
      cases hresult
      trivial

/-- Operators deliver plain values only. -/
theorem BinaryOp.isPlain_of_apply {op : BinaryOp} {left right : Value}
    (happly : op.apply left right = .ok value) : value.IsPlain := by
  unfold BinaryOp.apply at happly
  split at happly
  next a b =>
    cases hresult : op.onIntegers? a.toInt b.toInt with
    | none =>
        rw [hresult] at happly
        cases happly
    | some result =>
        rw [hresult] at happly
        exact isPlain_of_onIntegers? (hresult.trans (congrArg some happly))
  · cases op <;> cases happly <;> trivial
  · cases op <;> cases happly <;> trivial
  · cases op with
    | add =>
        cases happly
        trivial
    | _ => cases happly
  · cases happly

theorem UnaryOp.apply_kind {op : UnaryOp} {operand : Value}
    (happly : op.apply operand = .ok value) : value.kind ≠ .returned :=
  (isPlain_of_apply happly).kind_ne_returned

theorem BinaryOp.apply_kind {op : BinaryOp} {left right : Value}
    (happly : op.apply left right = .ok value) : value.kind ≠ .returned :=
  (isPlain_of_apply happly).kind_ne_returned

end

namespace Memory

variable {memory : Memory} {value : Value}

theorem mem_of_mem_elements {ref : ArrayRef} (hvalue : value ∈ memory.elements ref) :
    ∃ elements, memory.arrays[ref.index]? = some elements ∧ value ∈ elements := by
  rw [Memory.elements] at hvalue
  cases harray : memory.arrays[ref.index]? with
  | none => simp [harray] at hvalue
  | some elements =>
      rw [harray] at hvalue
      exact ⟨elements, rfl, hvalue⟩

theorem mem_elements {ref : ArrayRef} {elements : Array Value}
    (harray : memory.arrays[ref.index]? = some elements) (hvalue : value ∈ elements) :
    value ∈ memory.elements ref := by
  rw [Memory.elements, harray]
  exact hvalue

theorem elements_newArray (memory : Memory) (elements : Array Value) :
    (memory.newArray elements).2.elements (memory.newArray elements).1 = elements := by
  simp [Memory.newArray, Memory.elements]

theorem mem_elements_of_index {collection index : Value}
    (hindex : memory.index collection index = .ok value) :
    ∃ ref, collection = .array ref ∧ value ∈ memory.elements ref := by
  unfold Memory.index at hindex
  split at hindex
  next ref i =>
    by_cases hsign : 0 ≤ i.toInt
    · cases hfound : (memory.elements ref)[i.toInt.toNat]? with
      | none =>
          simp only [hsign, if_true, hfound] at hindex
          cases hindex
      | some found =>
          simp only [hsign, if_true, hfound] at hindex
          cases hindex
          exact ⟨ref, rfl, Array.mem_of_getElem? hfound⟩
    · simp [hsign] at hindex
  next => cases hindex

theorem bound_of_lookupWithin {name : String} {count : Nat} {frame : FrameRef}
    (hlookup : memory.lookupWithin name count frame = some value) :
    ∃ (place : Nat) (frame : Frame),
      memory.frames[place]? = some frame ∧ frame.bindings.get? name = some value := by
  induction count generalizing frame with
  | zero => cases hlookup
  | succ count ih =>
      obtain ⟨f, hframe, hget⟩ := Option.bind_eq_some_iff.mp hlookup
      split at hget
      · cases hget
        exact ⟨_, f, hframe, ‹_›⟩
      · obtain ⟨outer, -, houter⟩ := Option.bind_eq_some_iff.mp hget
        exact ih houter

/-! ## What operations add to memory -/

theorem bound_of_newFrame {outer : Option FrameRef} {place : Nat} {frame : Frame} {name : String}
    (hframe : (memory.newFrame outer).2.frames[place]? = some frame)
    (hget : frame.bindings.get? name = some value) : memory.frames[place]? = some frame := by
  rw [Memory.newFrame, Array.getElem?_push] at hframe
  split at hframe
  · cases hframe
    cases hget
  · exact hframe

theorem bound_of_bind {ref : FrameRef} {name name' : String} {bound : Value} {place : Nat}
    {frame : Frame} (hframe : (memory.bind ref name bound).frames[place]? = some frame)
    (hget : frame.bindings.get? name' = some value) :
    value = bound ∨
      ∃ before, memory.frames[place]? = some before ∧ before.bindings.get? name' = some value := by
  rw [Memory.bind, Array.getElem?_modify] at hframe
  split at hframe
  · obtain ⟨before, hbefore, rfl⟩ := Option.map_eq_some_iff.mp hframe
    rw [Bindings.get?_set] at hget
    split at hget
    · exact .inl (Option.some.inj hget).symm
    · exact .inr ⟨before, hbefore, hget⟩
  · exact .inr ⟨frame, hframe, hget⟩

theorem eq_or_of_newArray {new elements : Array Value} {place : Nat}
    (harray : (memory.newArray new).2.arrays[place]? = some elements) :
    elements = new ∨ memory.arrays[place]? = some elements := by
  rw [Memory.newArray, Array.getElem?_push] at harray
  split at harray
  · exact .inl (Option.some.inj harray).symm
  · exact .inr harray

theorem mem_of_append {ref : ArrayRef} {added : Value} {elements : Array Value} {place : Nat}
    (harray : (memory.append ref added).arrays[place]? = some elements)
    (hvalue : value ∈ elements) :
    value = added ∨ ∃ before, memory.arrays[place]? = some before ∧ value ∈ before := by
  rw [Memory.append, Array.getElem?_modify] at harray
  split at harray
  · obtain ⟨before, hbefore, rfl⟩ := Option.map_eq_some_iff.mp harray
    rcases Array.mem_push.mp hvalue with hmem | rfl
    · exact .inr ⟨before, hbefore, hmem⟩
    · exact .inl rfl
  · exact .inr ⟨elements, harray, hvalue⟩

end Memory

/-! ## What memory holds -/

/-- All values that names are bound to have one property, and all elements of arrays another. -/
structure Memory.Each (bound element : Value → Prop) (memory : Memory) : Prop where
  bound : ∀ {place : Nat} {frame : Frame}, memory.frames[place]? = some frame →
    ∀ {name : String} {value : Value}, frame.bindings.get? name = some value → bound value
  element : ∀ {place : Nat} {elements : Array Value}, memory.arrays[place]? = some elements →
    ∀ {value : Value}, value ∈ elements → element value

namespace Memory.Each

variable {memory : Memory} {bound element : Value → Prop}

theorem empty : Memory.empty.Each bound element where
  bound hframe := by simp [Memory.empty] at hframe
  element helements := by simp [Memory.empty] at helements

theorem mono {bound' element' : Value → Prop} (hmemory : memory.Each bound element)
    (hbound : ∀ value, bound value → bound' value)
    (helement : ∀ value, element value → element' value) : memory.Each bound' element' where
  bound hframe _ _ hget := hbound _ (hmemory.bound hframe hget)
  element harray _ hvalue := helement _ (hmemory.element harray hvalue)

theorem newFrame (hmemory : memory.Each bound element) (outer : Option FrameRef) :
    (memory.newFrame outer).2.Each bound element where
  bound hframe _ _ hget := hmemory.bound (bound_of_newFrame hframe hget) hget
  element := hmemory.element

theorem bind (hmemory : memory.Each bound element) (frame : FrameRef) (name : String)
    {value : Value} (hvalue : bound value) : (memory.bind frame name value).Each bound element where
  bound hframe _ _ hget := by
    rcases bound_of_bind hframe hget with rfl | ⟨before, hbefore, hold⟩
    · exact hvalue
    · exact hmemory.bound hbefore hold
  element := hmemory.element

theorem newArray (hmemory : memory.Each bound element) {elements : Array Value}
    (helements : ∀ value ∈ elements, element value) :
    (memory.newArray elements).2.Each bound element where
  bound := hmemory.bound
  element harray value hvalue := by
    rcases eq_or_of_newArray harray with rfl | hold
    · exact helements value hvalue
    · exact hmemory.element hold hvalue

theorem append (hmemory : memory.Each bound element) (ref : ArrayRef) {value : Value}
    (hvalue : element value) : (memory.append ref value).Each bound element where
  bound := hmemory.bound
  element harray _ hmem := by
    rcases mem_of_append harray hmem with rfl | ⟨before, hbefore, hold⟩
    · exact hvalue
    · exact hmemory.element hbefore hold

theorem newFunction (hmemory : memory.Each bound element) (function : Function) :
    (memory.newFunction function).2.Each bound element where
  bound := hmemory.bound
  element := hmemory.element

theorem of_mem_elements (hmemory : memory.Each bound element) {ref : ArrayRef} {value : Value}
    (hvalue : value ∈ memory.elements ref) : element value := by
  obtain ⟨elements, harray, hmem⟩ := mem_of_mem_elements hvalue
  exact hmemory.element harray hmem

end Memory.Each

/-! ## Well-formed memory -/

/-- No name is bound to an error or a pending return, and no array holds a pending return. -/
structure Memory.WellFormed (memory : Memory) : Prop where
  bound : ∀ {place : Nat} {frame : Frame}, memory.frames[place]? = some frame →
    ∀ {name : String} {value : Value}, frame.bindings.get? name = some value →
      value.isAbrupt = false
  element : ∀ {place : Nat} {elements : Array Value}, memory.arrays[place]? = some elements →
    ∀ {value : Value}, value ∈ elements → value.kind ≠ .returned

namespace Memory.WellFormed

variable {memory : Memory}

theorem each (hmemory : memory.WellFormed) :
    memory.Each (·.isAbrupt = false) (·.kind ≠ .returned) :=
  ⟨hmemory.bound, hmemory.element⟩

theorem of_each (hmemory : memory.Each (·.isAbrupt = false) (·.kind ≠ .returned)) :
    memory.WellFormed :=
  ⟨hmemory.bound, hmemory.element⟩

theorem empty : Memory.empty.WellFormed :=
  of_each .empty

theorem newFrame (hmemory : memory.WellFormed) (outer : Option FrameRef) :
    (memory.newFrame outer).2.WellFormed :=
  of_each (hmemory.each.newFrame outer)

theorem bind (hmemory : memory.WellFormed) (frame : FrameRef) (name : String) {value : Value}
    (hvalue : value.isAbrupt = false) : (memory.bind frame name value).WellFormed :=
  of_each (hmemory.each.bind frame name hvalue)

theorem bindAll (hmemory : memory.WellFormed) (frame : FrameRef) {entries : List (String × Value)}
    (hentries : ∀ entry ∈ entries, entry.2.isAbrupt = false) :
    (memory.bindAll frame entries).WellFormed := by
  induction entries generalizing memory with
  | nil => exact hmemory
  | cons entry rest ih =>
      obtain ⟨hentry, hrest⟩ := List.forall_mem_cons.mp hentries
      exact ih (hmemory.bind frame entry.1 hentry) hrest

theorem newArray (hmemory : memory.WellFormed) {elements : Array Value}
    (helements : ∀ value ∈ elements, value.kind ≠ .returned) :
    (memory.newArray elements).2.WellFormed :=
  of_each (hmemory.each.newArray helements)

theorem append (hmemory : memory.WellFormed) (ref : ArrayRef) {value : Value}
    (hvalue : value.kind ≠ .returned) : (memory.append ref value).WellFormed :=
  of_each (hmemory.each.append ref hvalue)

theorem newFunction (hmemory : memory.WellFormed) (function : Function) :
    (memory.newFunction function).2.WellFormed :=
  of_each (hmemory.each.newFunction function)

theorem isAbrupt_of_lookupWithin (hmemory : memory.WellFormed) {name : String} {count : Nat}
    {frame : FrameRef} {value : Value}
    (hlookup : memory.lookupWithin name count frame = some value) :
    value.isAbrupt = false := by
  obtain ⟨place, f, hframe, hget⟩ := bound_of_lookupWithin hlookup
  exact hmemory.bound hframe hget

theorem kind_of_mem_elements (hmemory : memory.WellFormed) {ref : ArrayRef} {value : Value}
    (hvalue : value ∈ memory.elements ref) : value.kind ≠ .returned :=
  hmemory.each.of_mem_elements hvalue

theorem kind_of_index (hmemory : memory.WellFormed) {collection index value : Value}
    (hindex : memory.index collection index = .ok value) : value.kind ≠ .returned := by
  obtain ⟨ref, -, hvalue⟩ := mem_elements_of_index hindex
  exact hmemory.kind_of_mem_elements hvalue

end Memory.WellFormed

end Monkey
