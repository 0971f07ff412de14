import Monkey.Proofs.Evaluation.Contract

/-! # Traces of evaluation

The tasks of a run come to an end one after the other, a task after all those that it handed on. In
this order they are the trace of the run (`Plan.Takes`). A run that is still going on, and may go on
forever, has a trace at every moment (`Plan.Comes`): the tasks that have ended so far.
-/

namespace Monkey

/-- A task that has come to an end. -/
structure Step where
  session : Session
  task : Task
  before : World
  result : Result
  after : World
  ends : (session.plan before task).Ends result after

/-- What remains of a loop after some rounds. It ends together with the loop. -/
def Task.isRounds : Task → Bool
  | .loop .. => true
  | _ => false

namespace Plan

/-- A plan ends with a result in a world after the given steps. -/
inductive Takes : Plan → List Step → Result → World → Prop
  | done {result world} : Takes (done result world) [] result world
  | pass {world next steps result world'} :
    Takes next steps result world' → Takes (pass world next) steps result world'
  | call {session task world next inner result world' outer result' world''}
    (hends : Ends (session.plan world task) result world') :
    Takes (session.plan world task) inner result world' →
    Takes (next result world') outer result' world'' →
    Takes (call session task world next)
      (inner ++ ⟨session, task, world, result, world', hends⟩ :: outer) result' world''

/-- A plan comes to a world after the given steps: a task begins there or has just come to an
end. -/
inductive Comes : Plan → List Step → World → Prop
  | pass {world next} : Comes (pass world next) [] world
  | next {world next steps world'} : Comes next steps world' → Comes (pass world next) steps world'
  | call {session task world next} : Comes (call session task world next) [] world
  | inside {session task world next steps world'} :
    Comes (session.plan world task) steps world' → Comes (call session task world next) steps world'
  | ended {session task world next inner result world'}
    (hends : Ends (session.plan world task) result world') (hrounds : task.isRounds = false) :
    Takes (session.plan world task) inner result world' →
    Comes (call session task world next)
      (inner ++ [⟨session, task, world, result, world', hends⟩]) world'
  | after {session task world next inner result world' outer world''}
    (hends : Ends (session.plan world task) result world') :
    Takes (session.plan world task) inner result world' →
    Comes (next result world') outer world'' →
    Comes (call session task world next)
      (inner ++ ⟨session, task, world, result, world', hends⟩ :: outer) world''

variable {plan : Plan} {steps : List Step} {result : Result} {world : World}

theorem Takes.ends (htakes : plan.Takes steps result world) : plan.Ends result world := by
  induction htakes with
  | done => exact .done
  | pass _ ih => exact .pass ih
  | call _ _ _ ihtask ihnext => exact .call ihtask ihnext

theorem Ends.exists_takes (hends : plan.Ends result world) :
    ∃ steps, plan.Takes steps result world := by
  induction hends with
  | done => exact ⟨[], .done⟩
  | pass _ ih =>
      obtain ⟨steps, htakes⟩ := ih
      exact ⟨steps, .pass htakes⟩
  | call hends _ ihtask ihnext =>
      obtain ⟨inner, htask⟩ := ihtask
      obtain ⟨outer, hnext⟩ := ihnext
      exact ⟨_, .call hends htask hnext⟩

end Plan

/-- A task begins in a world while the plan runs. -/
inductive Plan.Begins : Plan → Session → Task → World → Prop
  | here {session task world next} : Begins (call session task world next) session task world
  | next {world next session task world'} :
    Begins next session task world' → Begins (pass world next) session task world'
  | inside {session task world next session' task' world'} :
    Begins (session.plan world task) session' task' world' →
    Begins (call session task world next) session' task' world'
  | after {session task world next result world' session' task' world''} :
    Ends (session.plan world task) result world' →
    Begins (next result world') session' task' world'' →
    Begins (call session task world next) session' task' world''

/-- Every answer of the evaluator has a trace. -/
theorem Task.exists_takes_of_run {fuel : Nat} {session : Session} {task : Task}
    {world world' : World} {result : Result}
    (hrun : task.run fuel session world = some (result, world')) :
    ∃ steps, (session.plan world task).Takes steps result world' :=
  (Task.ends_of_run hrun).exists_takes

namespace Contract.Kept

variable {contract : Contract} {plan : Plan} {goal : Result → World → Prop} {steps : List Step}
  {world : World}

/-- Every task of a run begins with what the contract requires. -/
theorem requires_of_begins (hkept : contract.Kept) {session : Session} {task : Task}
    (hmeets : plan.Meets contract goal) (hbegins : plan.Begins session task world) :
    contract.requires session task world := by
  induction hbegins generalizing goal with
  | here => exact hmeets.2.1
  | next _ ih => exact ih hmeets.2
  | inside _ ih => exact ih (hkept _ _ _ hmeets.2.1)
  | after hends _ ih =>
      obtain ⟨-, hrequires, hnext⟩ := hmeets
      exact ih (hnext _ _ (hkept.ensures_of_ends hrequires hends))

/-- Every step of a run was taken with what the contract requires. -/
theorem requires_of_takes (hkept : contract.Kept) {result : Result}
    (hmeets : plan.Meets contract goal) (htakes : plan.Takes steps result world) :
    ∀ step ∈ steps, contract.requires step.session step.task step.before := by
  induction htakes generalizing goal with
  | done => exact nofun
  | pass _ ih => exact ih hmeets.2
  | call hends _ _ ihtask ihnext =>
      obtain ⟨-, hrequires, hnext⟩ := hmeets
      simp only [List.forall_mem_append, List.forall_mem_cons]
      exact ⟨ihtask (hkept _ _ _ hrequires), hrequires,
        ihnext (hnext _ _ (hkept.ensures_of_ends hrequires hends))⟩

theorem requires_of_comes (hkept : contract.Kept) (hmeets : plan.Meets contract goal)
    (hcomes : plan.Comes steps world) :
    ∀ step ∈ steps, contract.requires step.session step.task step.before := by
  induction hcomes generalizing goal with
  | pass => exact nofun
  | next _ ih => exact ih hmeets.2
  | call => exact nofun
  | inside _ ih => exact ih (hkept _ _ _ hmeets.2.1)
  | ended _ _ htakes =>
      obtain ⟨-, hrequires, -⟩ := hmeets
      simp only [List.forall_mem_append, List.forall_mem_singleton]
      exact ⟨hkept.requires_of_takes (hkept _ _ _ hrequires) htakes, hrequires⟩
  | after hends htakes _ ih =>
      obtain ⟨-, hrequires, hnext⟩ := hmeets
      simp only [List.forall_mem_append, List.forall_mem_cons]
      exact ⟨hkept.requires_of_takes (hkept _ _ _ hrequires) htakes, hrequires,
        ih (hnext _ _ (hkept.ensures_of_ends hrequires hends))⟩

end Contract.Kept

end Monkey
