import Monkey.Proofs.Evaluation.Answers

/-! # Contracts of the evaluator

A contract says what each task requires, what its answer ensures and what holds at every moment on
the way. It is kept if each plan keeps it on the assumption that the tasks handed on keep it; then
it holds of all answers, and of all moments even of runs without an answer.
-/

namespace Monkey

/-- The values that a task comes with. -/
def Task.values : Task → List Value
  | .loop _ _ _ collected => collected.toList
  | .block _ _ value => [value]
  | .apply callee args => callee :: args
  | _ => []

def Result.values : Result → List Value
  | one value => [value]
  | many values => values

/-- A plan comes to a moment: a world, with the values of the task that is handed on there or of
the result that is delivered there. -/
inductive Plan.Reaches : Plan → World → List Value → Prop
  | done {result world} : Reaches (done result world) world result.values
  | pass {world next} : Reaches (pass world next) world []
  | next {world next world' values} :
    Reaches next world' values → Reaches (pass world next) world' values
  | call {session task world next} : Reaches (call session task world next) world task.values
  | inside {session task world next world' values} :
    Reaches (session.plan world task) world' values →
    Reaches (call session task world next) world' values
  | after {session task world next result world' world'' values} :
    Ends (session.plan world task) result world' →
    Reaches (next result world') world'' values →
    Reaches (call session task world next) world'' values

/-- The last moment of a plan is its end. -/
theorem Plan.Ends.reaches {plan : Plan} {result : Result} {world : World}
    (hends : plan.Ends result world) : plan.Reaches world result.values := by
  induction hends with
  | done => exact .done
  | pass _ ih => exact .next ih
  | call hends _ _ ih => exact .after hends ih

structure Contract where
  requires : Session → Task → World → Prop
  ensures : Session → Task → World → Result → World → Prop
  moment : World → List Value → Prop

namespace Plan

/-- The plan reaches its goal if the tasks that it hands on keep the contract. -/
def Meets (contract : Contract) (goal : Result → World → Prop) : Plan → Prop
  | done result world => contract.moment world result.values ∧ goal result world
  | stuck => True
  | pass world next => contract.moment world [] ∧ next.Meets contract goal
  | call session task world next =>
    contract.moment world task.values ∧ contract.requires session task world ∧
      ∀ result world', contract.ensures session task world result world' →
        (next result world').Meets contract goal

theorem Meets.mono {contract : Contract} {plan : Plan} {goal goal' : Result → World → Prop}
    (hmeets : plan.Meets contract goal) (hgoal : ∀ result world, goal result world →
      goal' result world) : plan.Meets contract goal' := by
  induction plan with
  | done result world => exact ⟨hmeets.1, hgoal _ _ hmeets.2⟩
  | stuck => trivial
  | pass world next ih => exact ⟨hmeets.1, ih hmeets.2⟩
  | call session task world next ih =>
      exact ⟨hmeets.1, hmeets.2.1, fun _ _ hensures => ih _ _ (hmeets.2.2 _ _ hensures)⟩

/-- The plan reaches its goal if the results of the tasks that it hands on are as stated. -/
def Yields (ensures : Session → Task → World → Result → World → Prop)
    (goal : Result → World → Prop) : Plan → Prop
  | done result world => goal result world
  | stuck => True
  | pass _ next => next.Yields ensures goal
  | call session task world next =>
    ∀ result world', ensures session task world result world' →
      (next result world').Yields ensures goal

end Plan

namespace Contract

variable {contract : Contract}

def Kept (contract : Contract) : Prop :=
  ∀ session task world, contract.requires session task world →
    (session.plan world task).Meets contract (contract.ensures session task world)

theorem Kept.goal_of_ends (hkept : contract.Kept) {plan : Plan} {goal : Result → World → Prop}
    {result : Result} {world : World} (hmeets : plan.Meets contract goal)
    (hends : plan.Ends result world) : goal result world := by
  -- The goal changes from a plan to the plan of a task that it hands on.
  induction hends generalizing goal with
  | done => exact hmeets.2
  | pass _ ih => exact ih hmeets.2
  | call _ _ ihtask ihnext =>
      obtain ⟨-, hrequires, hnext⟩ := hmeets
      exact ihnext (hnext _ _ (ihtask (hkept _ _ _ hrequires)))

theorem Kept.moment_of_reaches (hkept : contract.Kept) {plan : Plan}
    {goal : Result → World → Prop} {world : World} {values : List Value}
    (hmeets : plan.Meets contract goal) (hreaches : plan.Reaches world values) :
    contract.moment world values := by
  induction hreaches generalizing goal with
  | done => exact hmeets.1
  | pass => exact hmeets.1
  | next _ ih => exact ih hmeets.2
  | call => exact hmeets.1
  | inside _ ih => exact ih (hkept _ _ _ hmeets.2.1)
  | after hends _ ih =>
      obtain ⟨-, hrequires, hnext⟩ := hmeets
      exact ih (hnext _ _ (hkept.goal_of_ends (hkept _ _ _ hrequires) hends))

/-- What the contract ensures, and more. -/
def Also (contract : Contract) (more : Session → Task → World → Result → World → Prop)
    (session : Session) (task : Task) (world : World) (result : Result) (world' : World) : Prop :=
  contract.ensures session task world result world' ∧ more session task world result world'

/-- More than the contract holds of each plan if it holds of the tasks that are handed on. -/
def Extends (contract : Contract) (more : Session → Task → World → Result → World → Prop) : Prop :=
  ∀ session task world, contract.requires session task world →
    (session.plan world task).Yields (contract.Also more) (more session task world)

variable {more : Session → Task → World → Result → World → Prop}

theorem Kept.goals_of_ends (hkept : contract.Kept) (hmore : contract.Extends more) {plan : Plan}
    {goal goal' : Result → World → Prop} {result : Result} {world : World}
    (hmeets : plan.Meets contract goal)
    (hyields : plan.Yields (contract.Also more) goal')
    (hends : plan.Ends result world) : goal result world ∧ goal' result world := by
  induction hends generalizing goal goal' with
  | done => exact ⟨hmeets.2, hyields⟩
  | pass _ ih => exact ih hmeets.2 hyields
  | call _ _ ihtask ihnext =>
      obtain ⟨-, hrequires, hnext⟩ := hmeets
      have htask := ihtask (hkept _ _ _ hrequires) (hmore _ _ _ hrequires)
      exact ihnext (hnext _ _ htask.1) (hyields _ _ htask)

theorem Kept.more_of_ends (hkept : contract.Kept) (hmore : contract.Extends more)
    {session : Session} {task : Task} {world world' : World} {result : Result}
    (hrequires : contract.requires session task world)
    (hends : (session.plan world task).Ends result world') :
    more session task world result world' :=
  (hkept.goals_of_ends hmore (hkept _ _ _ hrequires) (hmore _ _ _ hrequires) hends).2

theorem Kept.ensures_of_ends (hkept : contract.Kept) {session : Session} {task : Task}
    {world world' : World} {result : Result} (hrequires : contract.requires session task world)
    (hends : (session.plan world task).Ends result world') :
    contract.ensures session task world result world' :=
  hkept.goal_of_ends (hkept _ _ _ hrequires) hends

/-- A kept contract holds of the answers of the evaluator. -/
theorem Kept.ensures_of_run (hkept : contract.Kept) {fuel : Nat} {session : Session} {task : Task}
    {world world' : World} {result : Result} (hrequires : contract.requires session task world)
    (hrun : task.run fuel session world = some (result, world')) :
    contract.ensures session task world result world' :=
  hkept.ensures_of_ends hrequires (Task.ends_of_run hrun)

end Contract

end Monkey
