import Monkey.Memory.Bindings
import Monkey.Program

/-!
# Memory

Frames, arrays and functions live in tables that only grow; an identity is a place in its table. A
frame is created after its outer frame, so outer links lead to smaller places and every chain of
frames ends.
-/

namespace Monkey

/-- A function literal with the frame it was evaluated in. -/
structure Function where
  params : List String
  body : Block
  frame : FrameRef
deriving Inhabited

/-- The bindings of one activation and the frame around it. -/
structure Frame where
  outer : Option FrameRef
  bindings : Bindings
deriving Inhabited

/-- All frames, arrays and functions created so far. -/
structure Memory where
  frames : Array Frame
  arrays : Array (Array Value)
  functions : Array Function
deriving Inhabited

namespace Memory

/-- Nothing created yet. -/
def empty : Memory := ⟨#[], #[], #[]⟩

/-- Creates a frame without bindings. -/
def newFrame (outer : Option FrameRef) (memory : Memory) : FrameRef × Memory :=
  (⟨memory.frames.size⟩, { memory with frames := memory.frames.push ⟨outer, .empty⟩ })

/-- Binds a name in a frame. -/
def bind (frame : FrameRef) (name : String) (value : Value) (memory : Memory) : Memory :=
  { memory with
    frames := memory.frames.modify frame.index fun f =>
      { f with bindings := f.bindings.set name value } }

/-- Binds names in a frame, in order. -/
def bindAll (frame : FrameRef) (bindings : List (String × Value)) (memory : Memory) : Memory :=
  bindings.foldl (fun memory entry => memory.bind frame entry.1 entry.2) memory

/-- Looks a name up in a frame and, failing that, in the frames around it, visiting at most the
given number of frames. -/
def lookupWithin (memory : Memory) (name : String) : Nat → FrameRef → Option Value
  | 0, _ => none
  | count + 1, frame => do
    let frame ← memory.frames[frame.index]?
    match frame.bindings.get? name with
    | some value => some value
    | none => memory.lookupWithin name count (← frame.outer)

/-- The value of a name in a frame or in the nearest frame around it. The chain of a frame holds no
frame created after it, so its place bounds the length of the chain. -/
def lookup? (memory : Memory) (frame : FrameRef) (name : String) : Option Value :=
  memory.lookupWithin name (frame.index + 1) frame

/-- Creates an array. -/
def newArray (elements : Array Value) (memory : Memory) : ArrayRef × Memory :=
  (⟨memory.arrays.size⟩, { memory with arrays := memory.arrays.push elements })

/-- The elements of an array. -/
def elements (memory : Memory) (ref : ArrayRef) : Array Value :=
  memory.arrays[ref.index]?.getD #[]

/-- Adds an element at the end of an array, for everyone who holds the array. -/
def append (ref : ArrayRef) (value : Value) (memory : Memory) : Memory :=
  { memory with arrays := memory.arrays.modify ref.index (·.push value) }

/-- Creates a function. -/
def newFunction (function : Function) (memory : Memory) : FunctionRef × Memory :=
  (⟨memory.functions.size⟩, { memory with functions := memory.functions.push function })

/-- The function with the given identity. -/
def function? (memory : Memory) (ref : FunctionRef) : Option Function :=
  memory.functions[ref.index]?

end Memory

end Monkey
