import Monkey.Proofs.Evaluation.Known
import Monkey.Proofs.Memory.Acyclic

/-! # Cycles that evaluation closes

The elements of a new array exist before it, so only `add` can make an array contain itself, and
then it was called with an element from which the array could already be reached. Of all steps of a
run only these calls decide whether there are cycles at its end (`Plan.Takes.acyclic_iff`).
-/

namespace Monkey

open Relation

/-- The step has called `add` with an element from which the array could be reached, or with the
array itself. -/
def Step.ClosesCycle (step : Step) : Prop :=
  ∃ ref value held, step.task = .apply (.builtin .add) [.array ref, value] ∧ value.Refers held ∧
    ReflTransGen step.before.memory.Contains held ref

section

variable {allowed : Builtin → Prop} {session : Session} {task part : Task}
  {frame : Option FrameRef} {seen args : List Value} {memory memory' : Memory}
  {world world' : World} {result : Result} {value : Value} {inner steps : List Step}

theorem Value.Known.lt_of_refers {count : Nat} {held : ArrayRef}
    (hvalue : value.Known allowed count) (hrefers : value.Refers held) : held.index < count := by
  induction hrefers with
  | array => exact hvalue
  | returned _ ih => exact ih hvalue

theorem Memory.Known.acyclic_newArray_iff (hmemory : memory.Known allowed) {elements : Array Value}
    (helements : ∀ value ∈ elements, value.Known allowed memory.arrays.size) :
    (memory.newArray elements).2.Acyclic ↔ memory.Acyclic := by
  refine Memory.acyclic_newArray_iff ?_ fun value hvalue held =>
    (helements value hvalue).lt_of_refers
  rintro ref held ⟨value, hvalue, hrefers⟩
  exact (hmemory.of_mem_elements hvalue).lt_of_refers hrefers

/-! ## One level -/

theorem Builtin.Effect.acyclic_iff {builtin : Builtin}
    (heffect : Builtin.Effect memory builtin args value memory') (hadd : builtin ≠ .add)
    (hmemory : memory.Known allowed)
    (hargs : ∀ arg ∈ args, arg.Known allowed memory.arrays.size) :
    memory'.Acyclic ↔ memory.Acyclic := by
  cases heffect with
  | plain => exact Iff.rfl
  | element => exact Iff.rfl
  | rest =>
      refine hmemory.acyclic_newArray_iff fun element helement => ?_
      obtain ⟨k, hk, rfl⟩ := Array.mem_extract_iff_getElem.mp helement
      exact hmemory.of_mem_elements (Array.getElem_mem _)
  | push =>
      refine hmemory.acyclic_newArray_iff fun element helement => ?_
      rcases Array.mem_push.mp helement with hmem | rfl
      · exact hmemory.of_mem_elements hmem
      · exact hargs element (by simp)
  | add => exact absurd rfl hadd

theorem Task.Does.acyclic_iff (hdoes : task.Does session frame world seen result world')
    (hsession : session.Closed) (hadd : ∀ args, task ≠ .apply (.builtin .add) args)
    (hmemory : world.memory.Known allowed)
    (htask : ∀ value ∈ task.values, value.Known allowed world.memory.arrays.size)
    (hseen : ∀ value ∈ seen, value.Known allowed world.memory.arrays.size) :
    world'.memory.Acyclic ↔ world.memory.Acyclic := by
  cases hdoes with
  | array _ _ hvalues =>
      exact hmemory.acyclic_newArray_iff fun value hvalue => hseen value (hvalues value hvalue)
  | builtin hrun =>
      refine (hsession.effect hrun).acyclic_iff ?_ hmemory
        fun arg harg => htask arg (List.mem_cons_of_mem _ harg)
      rintro rfl
      exact hadd _ rfl
  | _ => exact Iff.rfl

/-- A call of `add` is over at once. It adds an element to an array, or changes nothing. -/
theorem Session.takes_add
    (htakes : (session.plan world (.apply (.builtin .add) args)).Takes inner result world') :
    inner = [] ∧ ((∃ ref value, args = [.array ref, value] ∧
      world'.memory = world.memory.append ref value) ∨
        (∀ ref value, args ≠ [.array ref, value]) ∧ world'.memory = world.memory) := by
  change (session.planBuiltin world .add args).Takes inner result world' at htakes
  rw [Session.planBuiltin, if_neg (by simp)] at htakes
  rcases args with _ | ⟨array, _ | ⟨value, _ | _⟩⟩
  case cons.cons.nil =>
    cases array with
    | array ref =>
        cases htakes
        exact ⟨rfl, .inl ⟨ref, value, rfl, rfl⟩⟩
    | _ =>
        cases htakes
        exact ⟨rfl, .inr ⟨by simp, rfl⟩⟩
  all_goals
    cases htakes
    exact ⟨rfl, .inr ⟨by simp, rfl⟩⟩

/-- After a call of `add` there are cycles if there were before, or if the call has closed one. -/
theorem Step.acyclic_iff_of_add (step : Step) (htask : step.task = .apply (.builtin .add) args)
    (htakes : (step.session.plan step.before step.task).Takes inner step.result step.after)
    (hargs : ∀ arg ∈ args, arg.Known allowed step.before.memory.arrays.size) :
    inner = [] ∧
      (step.after.memory.Acyclic ↔ step.before.memory.Acyclic ∧ ¬ step.ClosesCycle) := by
  rw [htask] at htakes
  obtain ⟨hinner, ⟨ref, value, rfl, hmemory⟩ | ⟨hargs', hmemory⟩⟩ := Session.takes_add htakes
  · refine ⟨hinner, ?_⟩
    have href : ref.index < step.before.memory.arrays.size := hargs (.array ref) (by simp)
    rw [hmemory, Memory.acyclic_append_iff href]
    refine and_congr_right fun _ => ⟨?_, ?_⟩
    · rintro hnone ⟨ref', value', held, htask', hrefers, hreaches⟩
      cases htask.symm.trans htask'
      exact hnone held hrefers hreaches
    · exact fun hnone held hrefers hreaches => hnone ⟨ref, value, held, htask, hrefers, hreaches⟩
  · refine ⟨hinner, ?_⟩
    have hnone : ¬ step.ClosesCycle := by
      rintro ⟨ref, value, held, htask', -⟩
      cases htask.symm.trans htask'
      exact hargs' ref value rfl
    rw [hmemory]
    exact (and_iff_left hnone).symm

/-! ## All levels -/

theorem Step.not_closesCycle (step : Step)
    (hadd : ∀ args, step.task ≠ .apply (.builtin .add) args) : ¬ step.ClosesCycle := by
  rintro ⟨ref, value, held, htask, -⟩
  exact hadd _ htask

/-- At the end of a run there are cycles if there were at its beginning, or if a step has closed
one. -/
theorem Plan.Takes.acyclic_iff {plan : Plan} {goal : Result → World → Prop}
    (htakes : plan.Takes steps result world')
    (hlocal : plan.Local session task frame seen world) (hsession : session.Closed)
    (hmeets : plan.Meets (knowledge allowed) goal)
    (hadd : ∀ args, task ≠ .apply (.builtin .add) args) (hmemory : world.memory.Known allowed)
    (htask : ∀ value ∈ task.values, value.Known allowed world.memory.arrays.size)
    (hseen : ∀ value ∈ seen, value.Known allowed world.memory.arrays.size) :
    world'.memory.Acyclic ↔ world.memory.Acyclic ∧ ∀ step ∈ steps, ¬ step.ClosesCycle := by
  induction htakes generalizing session task frame seen world goal with
  | done => simpa using hlocal.does.acyclic_iff hsession hadd hmemory htask hseen
  | pass _ ih =>
      obtain ⟨-, rfl, place, name, value, -, hvalue, hnext⟩ := hlocal.of_pass
      have hbound := hmemory.bind place name (hseen value hvalue)
      have hrest := ih hnext hsession hmeets.2 hadd hbound htask hseen
      exact hrest
  | @call session' part start next inner result world' outer result' world'' hends htakes hnext
      ihtask ihnext =>
      obtain ⟨hhands, hcase⟩ := hlocal.of_call
      have hstart := hhands.memory_eq
      obtain ⟨-, hrequires, hmeetsNext⟩ := hmeets
      obtain ⟨hproper, hle, hmemory', hvalues⟩ :=
        (kept_knowledge allowed).ensures_of_ends hrequires hends
      let step : Step := ⟨session', part, start, result, world', hends⟩
      have hpart : world'.memory.Acyclic ↔
          start.memory.Acyclic ∧ ∀ other ∈ inner ++ [step], ¬ other.ClosesCycle := by
        by_cases hpartAdd : ∃ args, part = .apply (.builtin .add) args
        · obtain ⟨args, rfl⟩ := hpartAdd
          obtain ⟨rfl, hstep⟩ := step.acyclic_iff_of_add rfl htakes
            fun arg harg => hrequires.2.2.2 arg (List.mem_cons_of_mem _ harg)
          simpa using hstep
        · have hpartAdd' (args : List Value) : part ≠ .apply (.builtin .add) args :=
            fun h => hpartAdd ⟨args, h⟩
          obtain ⟨place, entered, henters, hlocalPart⟩ := session'.plan_local part start
          have hknown := hrequires.2.2.2
          rw [← henters.arrays] at hknown
          have hinner := ihtask hlocalPart hrequires.1 (kept_knowledge allowed _ _ _ hrequires)
            hpartAdd' (henters.known hrequires.2.2.1) hknown
            fun value hvalue => hknown value (part.given_subset_values value hvalue)
          rw [Memory.acyclic_congr henters.arrays] at hinner
          rw [hinner, List.forall_mem_append, List.forall_mem_singleton,
            and_iff_left (step.not_closesCycle hpartAdd')]
      have hrest : world''.memory.Acyclic ↔
          world'.memory.Acyclic ∧ ∀ other ∈ outer, ¬ other.ClosesCycle := by
        rcases hcase with ⟨-, rfl⟩ | ⟨-, -, hafter⟩
        · -- The task ends with what the part has delivered.
          cases hnext
          simp
        · have hle' := hstart ▸ hle
          refine ihnext (hafter result world' hproper) hsession
            (hmeetsNext _ _ ⟨hproper, hle, hmemory', hvalues⟩) hadd hmemory'
            (fun value hvalue => (htask value hvalue).mono hle') fun value hvalue => ?_
          rcases List.mem_append.mp hvalue with hmem | hmem
          · exact hvalues value hmem
          · exact (hseen value hmem).mono hle'
      rw [hrest, hpart, hstart, and_assoc, ← List.forall_mem_append, List.append_assoc]
      rfl

end

end Monkey
