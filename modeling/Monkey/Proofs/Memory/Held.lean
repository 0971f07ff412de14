import Monkey.Proofs.Memory

/-! # What a frame holds

The tables of memory only grow, so they also list what nothing leads to any more. A program gets
hold only of what its frame leads to (`Memory.Held`) and of what is created while it runs. Both
together are a region of memory that nothing leads out of (`Region.encloses_held`), whatever
happens in it.
-/

namespace Monkey

/-! ## Held frames and values -/

/-- Something in memory that a frame can lead to. -/
inductive Memory.Item
  | frame (ref : FrameRef)
  | value (value : Value)

/-- What a frame leads to: itself, outer frames, what names are bound to, elements of arrays, the
frames that functions were created in, and what pending returns carry. -/
inductive Memory.Held (memory : Memory) (root : FrameRef) : Memory.Item → Prop
  | root : Held memory root (.frame root)
  | outer {place frame next} (hplace : Held memory root (.frame place))
    (hframe : memory.frames[place.index]? = some frame) (houter : frame.outer = some next) :
    Held memory root (.frame next)
  | bound {place frame name value} (hplace : Held memory root (.frame place))
    (hframe : memory.frames[place.index]? = some frame)
    (hget : frame.bindings.get? name = some value) : Held memory root (.value value)
  | element {ref value} (harray : Held memory root (.value (.array ref)))
    (hvalue : value ∈ memory.elements ref) : Held memory root (.value value)
  | captured {ref function} (href : Held memory root (.value (.function ref)))
    (hfunction : memory.function? ref = some function) : Held memory root (.frame function.frame)
  | carried {value} (hreturned : Held memory root (.value (.returned value))) :
    Held memory root (.value value)

/-! ## Regions -/

/-- Some of the frames, arrays and functions, among them perhaps some that do not exist yet. -/
structure Region where
  frame : FrameRef → Prop
  array : ArrayRef → Prop
  function : FunctionRef → Prop

namespace Region

/-- What the value refers to is in the region. -/
def value (region : Region) : Value → Prop
  | .array ref => region.array ref
  | .function ref => region.function ref
  | .returned value => region.value value
  | _ => True

/-- Everything. -/
def all : Region :=
  ⟨fun _ => True, fun _ => True, fun _ => True⟩

/-- What the frame holds, and what does not exist yet. -/
def held (memory : Memory) (root : FrameRef) : Region where
  frame place := memory.Held root (.frame place) ∨ memory.frames.size ≤ place.index
  array ref := memory.Held root (.value (.array ref)) ∨ memory.arrays.size ≤ ref.index
  function ref := memory.Held root (.value (.function ref)) ∨ memory.functions.size ≤ ref.index

/-- Nothing in memory leads out of the region, and what does not exist yet belongs to it. -/
structure Encloses (region : Region) (memory : Memory) : Prop where
  outer : ∀ {place frame next}, region.frame place →
    memory.frames[place.index]? = some frame → frame.outer = some next → region.frame next
  bound : ∀ {place frame name value}, region.frame place →
    memory.frames[place.index]? = some frame → frame.bindings.get? name = some value →
      region.value value
  element : ∀ {ref value}, region.array ref → value ∈ memory.elements ref → region.value value
  captured : ∀ {ref function}, region.function ref → memory.function? ref = some function →
    region.frame function.frame
  frame_of_le : ∀ {place}, memory.frames.size ≤ place.index → region.frame place
  array_of_le : ∀ {ref}, memory.arrays.size ≤ ref.index → region.array ref
  function_of_le : ∀ {ref}, memory.functions.size ≤ ref.index → region.function ref

variable {region : Region} {memory : Memory} {root place : FrameRef} {v : Value}

theorem value_all (v : Value) : all.value v := by
  induction v with
  | returned v ih => exact ih
  | _ => trivial

theorem value_of_isPlain (hvalue : v.IsPlain) : region.value v := by
  cases v with
  | array | function | returned => exact hvalue.elim
  | _ => trivial

theorem value_of_held (hheld : memory.Held root (.value v)) : (held memory root).value v := by
  induction v with
  | array ref => exact .inl hheld
  | function ref => exact .inl hheld
  | returned v ih => exact ih (.carried hheld)
  | _ => trivial

theorem encloses_all (memory : Memory) : all.Encloses memory where
  outer _ _ _ := trivial
  bound _ _ _ := value_all _
  element _ _ := value_all _
  captured _ _ := trivial
  frame_of_le _ := trivial
  array_of_le _ := trivial
  function_of_le _ := trivial

/-- Nothing leads out of what a frame holds. -/
theorem encloses_held (memory : Memory) (root : FrameRef) : (held memory root).Encloses memory where
  outer hplace hframe houter := by
    rcases hplace with hheld | hle
    · exact .inl (.outer hheld hframe houter)
    · rw [Array.getElem?_eq_none hle] at hframe
      cases hframe
  bound hplace hframe hget := by
    rcases hplace with hheld | hle
    · exact value_of_held (.bound hheld hframe hget)
    · rw [Array.getElem?_eq_none hle] at hframe
      cases hframe
  element harray hvalue := by
    rcases harray with hheld | hle
    · exact value_of_held (.element hheld hvalue)
    · rw [Memory.elements, Array.getElem?_eq_none hle] at hvalue
      exact absurd hvalue (Array.not_mem_empty _)
  captured href hfunction := by
    rcases href with hheld | hle
    · exact .inl (.captured hheld hfunction)
    · rw [Memory.function?, Array.getElem?_eq_none hle] at hfunction
      cases hfunction
  frame_of_le := .inr
  array_of_le := .inr
  function_of_le := .inr

namespace Encloses

theorem lookupWithin (hmemory : region.Encloses memory) {name : String} {count : Nat}
    (hplace : region.frame place) (hlookup : memory.lookupWithin name count place = some v) :
    region.value v := by
  induction count generalizing place with
  | zero => cases hlookup
  | succ count ih =>
      obtain ⟨frame, hframe, hget⟩ := Option.bind_eq_some_iff.mp hlookup
      split at hget
      next hbound =>
        cases hget
        exact hmemory.bound hplace hframe hbound
      next =>
        obtain ⟨next, houter, hrest⟩ := Option.bind_eq_some_iff.mp hget
        exact ih (hmemory.outer hplace hframe houter) hrest

theorem newFrame (hmemory : region.Encloses memory) {outer : Option FrameRef}
    (houter : ∀ next, outer = some next → region.frame next) :
    region.Encloses (memory.newFrame outer).2 where
  outer hplace hframe hnext := by
    rw [Memory.newFrame, Array.getElem?_push] at hframe
    split at hframe
    · cases hframe
      exact houter _ hnext
    · exact hmemory.outer hplace hframe hnext
  bound hplace hframe hget := hmemory.bound hplace (Memory.bound_of_newFrame hframe hget) hget
  element := hmemory.element
  captured := hmemory.captured
  frame_of_le hle := by
    rw [Memory.newFrame, Array.size_push] at hle
    exact hmemory.frame_of_le (Nat.le_of_succ_le hle)
  array_of_le := hmemory.array_of_le
  function_of_le := hmemory.function_of_le

theorem bind (hmemory : region.Encloses memory) (place : FrameRef) (name : String)
    (hvalue : region.value v) : region.Encloses (memory.bind place name v) where
  outer hplace hframe hnext := by
    rw [Memory.bind, Array.getElem?_modify] at hframe
    split at hframe
    · obtain ⟨f, hf, rfl⟩ := Option.map_eq_some_iff.mp hframe
      exact hmemory.outer hplace hf hnext
    · exact hmemory.outer hplace hframe hnext
  bound hplace hframe hget := by
    rcases Memory.bound_of_bind hframe hget with rfl | ⟨before, hbefore, hold⟩
    · exact hvalue
    · exact hmemory.bound hplace hbefore hold
  element := hmemory.element
  captured := hmemory.captured
  frame_of_le hle := by
    rw [Memory.bind, Array.size_modify] at hle
    exact hmemory.frame_of_le hle
  array_of_le := hmemory.array_of_le
  function_of_le := hmemory.function_of_le

theorem newArray (hmemory : region.Encloses memory) {elements : Array Value}
    (helements : ∀ v ∈ elements, region.value v) :
    region.Encloses (memory.newArray elements).2 where
  outer := hmemory.outer
  bound := hmemory.bound
  element {ref value} harray hvalue := by
    obtain ⟨contents, hcontents, hmem⟩ := Memory.mem_of_mem_elements hvalue
    rcases Memory.eq_or_of_newArray hcontents with rfl | hold
    · exact helements value hmem
    · exact hmemory.element harray (Memory.mem_elements hold hmem)
  captured := hmemory.captured
  frame_of_le := hmemory.frame_of_le
  array_of_le hle := by
    rw [Memory.newArray, Array.size_push] at hle
    exact hmemory.array_of_le (Nat.le_of_succ_le hle)
  function_of_le := hmemory.function_of_le

theorem append (hmemory : region.Encloses memory) (ref : ArrayRef) (hvalue : region.value v) :
    region.Encloses (memory.append ref v) where
  outer := hmemory.outer
  bound := hmemory.bound
  element harray hvalue' := by
    obtain ⟨contents, hcontents, hmem⟩ := Memory.mem_of_mem_elements hvalue'
    rcases Memory.mem_of_append hcontents hmem with rfl | ⟨before, hbefore, hold⟩
    · exact hvalue
    · exact hmemory.element harray (Memory.mem_elements hbefore hold)
  captured := hmemory.captured
  frame_of_le := hmemory.frame_of_le
  array_of_le hle := by
    rw [Memory.append, Array.size_modify] at hle
    exact hmemory.array_of_le hle
  function_of_le := hmemory.function_of_le

theorem newFunction (hmemory : region.Encloses memory) {function : Function}
    (hframe : region.frame function.frame) :
    region.Encloses (memory.newFunction function).2 where
  outer := hmemory.outer
  bound := hmemory.bound
  element := hmemory.element
  captured href hfunction := by
    rw [Memory.function?, Memory.newFunction, Array.getElem?_push] at hfunction
    split at hfunction
    · cases hfunction
      exact hframe
    · exact hmemory.captured href hfunction
  frame_of_le := hmemory.frame_of_le
  array_of_le := hmemory.array_of_le
  function_of_le hle := by
    rw [Memory.newFunction, Array.size_push] at hle
    exact hmemory.function_of_le (Nat.le_of_succ_le hle)

end Encloses

end Region

end Monkey
