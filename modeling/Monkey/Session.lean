import Monkey.World

/-!
# Sessions

A session is what stays the same while its sources are evaluated: the builtin functions that can be
reached by name, and the frame that top-level bindings go to.
-/

namespace Monkey

/-- The surroundings of an evaluation. `foreign` gives the meaning of builtin functions that the
program around the interpreter supplies. -/
structure Session where
  registry : Registry
  top : FrameRef
  foreign : String → List Value → Call Value

namespace Session

/-- A session without foreign functions whose top frame is new. -/
def create (registry : Registry) : Eval Session := do
  let top ← Eval.updateMemory (Memory.newFrame none)
  return ⟨registry, top, fun name _ => throw (.unbound name)⟩

/-- The same session with only the standard functions in reach. -/
def standard (session : Session) : Session :=
  { session with registry := .standard }

/-- The meaning of a name: bindings come before builtin functions. -/
def resolve (session : Session) (frame : FrameRef) (name : String) (memory : Memory) : Value :=
  match memory.lookup? frame name with
  | some value => value
  | none =>
    match session.registry.get? name with
    | some builtin => .builtin builtin
    | none => Fault.toValue (.unbound name)

end Session

end Monkey
