import Monkey.Proofs.Evaluation.Acyclic
import Monkey.Proofs.Session

/-! # When arrays contain themselves

A new session has no arrays. A program that starts without cycles ends without them, unless it has
called `add` with an array and something from which that array could be reached. As long as there
are no cycles, all values can be printed and compared.
-/

namespace Monkey

open Relation

namespace Session

theorem acyclic_of_create {registry : Registry} {console : Host.Console} {files : Host.Directory}
    {session : Session} {world : World}
    (hnew : (Session.create registry).run (.initial console files) = some (session, world)) :
    session.Closed ∧ world.memory.Known (fun _ => True) ∧ world.memory.Acyclic := by
  cases hnew
  refine ⟨rfl, Memory.Each.empty.newFrame none, fun ref hcycle => ?_⟩
  obtain ⟨middle, -, hmiddle⟩ := TransGen.tail'_iff.mp hcycle
  exact absurd hmiddle.lt_size (Nat.not_lt_zero _)

theorem acyclic_iff_of_takes {session : Session} {world world' : World} {frame : FrameRef}
    {p : Program} {result : Result} {steps : List Step} (hsession : session.Closed)
    (hmemory : world.memory.Known fun _ => True) (hacyclic : world.memory.Acyclic)
    (htakes : (session.plan world (.program frame p)).Takes steps result world') :
    world'.memory.Acyclic ↔ ∀ step ∈ steps, ¬ step.ClosesCycle := by
  have hrequires : (knowledge fun _ => True).requires session (.program frame p) world :=
    ⟨hsession, ⟨fun _ _ => trivial, fun _ _ => trivial⟩, hmemory, nofun⟩
  obtain ⟨place, entered, henters, hlocal⟩ := session.plan_local (.program frame p) world
  have hiff := htakes.acyclic_iff hlocal hsession (kept_knowledge _ _ _ _ hrequires) nofun
    (henters.known hmemory) nofun nofun
  rw [Memory.acyclic_congr henters.arrays] at hiff
  exact hiff.trans (and_iff_right hacyclic)

/-- Sessions start without cycles, a program closes one exactly if it calls `add` with an element
from which the array can be reached, and without cycles every value has a text and any two values
can be compared. -/
theorem evalProgram_acyclic_iff :
    (∀ registry console files session world,
      (Session.create registry).run (.initial console files) = some (session, world) →
        session.Closed ∧ world.memory.Known (fun _ => True) ∧ world.memory.Acyclic) ∧
    (∀ (session : Session) (world world' : World) (fuel : Nat) (frame : FrameRef) (p : Program)
      (value : Value), session.Closed → world.memory.Known (fun _ => True) →
        world.memory.Acyclic →
        (session.evalProgram fuel frame p).run world = some (value, world') →
          (∃ steps, (session.plan world (.program frame p)).Takes steps (.one value) world') ∧
          ∀ steps, (session.plan world (.program frame p)).Takes steps (.one value) world' →
            (world'.memory.Acyclic ↔ ∀ step ∈ steps, ¬ step.ClosesCycle)) ∧
    ∀ memory : Memory, memory.Acyclic →
      (∀ value, (memory.text? value).isSome) ∧ ∀ a b, (memory.equal? a b).isSome := by
  refine ⟨fun _ _ _ _ _ => acyclic_of_create, ?_, ?_⟩
  · intro session world world' fuel frame p value hsession hmemory hacyclic hrun
    exact ⟨Task.exists_takes_of_run (run_program hrun), fun steps htakes =>
      acyclic_iff_of_takes hsession hmemory hacyclic htakes⟩
  · exact fun memory hacyclic => ⟨hacyclic.isSome_text?, hacyclic.isSome_equal?⟩

/-- An array that is added to one of its own elements. -/
theorem evalProgram_acyclic_iff_mutual :
    ∃ value world' steps,
      (Session.fresh.evalProgram 20 Session.fresh.top
        (parse "let a = []; let b = [a]; add(a, b);").program).run .fresh = some (value, world') ∧
      world'.memory.arrays = #[#[.array ⟨1⟩], #[.array ⟨0⟩]] ∧
      (Session.fresh.plan .fresh (.program Session.fresh.top
        (parse "let a = []; let b = [a]; add(a, b);").program)).Takes steps (.one value) world' ∧
      ∃ step ∈ steps, step.ClosesCycle := by
  have hnew : (Session.create .standard).run (.initial (.ofInput []) .empty) =
      some (.fresh, .fresh) := rfl
  have hrun : ((Session.fresh.evalProgram 20 Session.fresh.top
      (parse "let a = []; let b = [a]; add(a, b);").program).run .fresh).map
        (·.2.memory.arrays) = some #[#[.array ⟨1⟩], #[.array ⟨0⟩]] := by
    decide +kernel
  obtain ⟨⟨value, world'⟩, hreply, (harrays : world'.memory.arrays = _)⟩ :=
    Option.map_eq_some_iff.mp hrun
  obtain ⟨hstart, hprogram, -⟩ := evalProgram_acyclic_iff
  obtain ⟨hsession, hmemory, hacyclic⟩ := hstart _ _ _ _ _ hnew
  obtain ⟨⟨steps, htakes⟩, hiff⟩ := hprogram _ _ _ _ _ _ _ hsession hmemory hacyclic hreply
  refine ⟨value, world', steps, hreply, harrays, htakes, ?_⟩
  -- The two arrays contain each other, so one of the steps must have closed the cycle.
  have hcycle : ¬ world'.memory.Acyclic := by
    have hthere : world'.memory.Contains ⟨0⟩ ⟨1⟩ :=
      ⟨.array ⟨1⟩, by simp [Memory.elements, harrays], .array⟩
    have hback : world'.memory.Contains ⟨1⟩ ⟨0⟩ :=
      ⟨.array ⟨0⟩, by simp [Memory.elements, harrays], .array⟩
    exact fun hacyclic => hacyclic ⟨0⟩ (.head hthere (.single hback))
  rw [hiff steps htakes] at hcycle
  simpa using hcycle

end Session

end Monkey
