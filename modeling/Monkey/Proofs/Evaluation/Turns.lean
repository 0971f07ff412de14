import Monkey.Proofs.Evaluation.Steps

/-! # Turns of a run

While a task is evaluated, the levels of the run take turns: each works on the world by itself until
it hands a task on, and again when that task has come to its end. A run changes nothing outside of
the turns of its levels (`Plan.Ends.exists_turn`).
-/

namespace Monkey

/-- What the level of a task does to the world by itself, from one event to the next. -/
structure Turn where
  session : Session
  task : Task
  before : World
  after : World

/-- While the plan runs, a level takes a turn. The plan is what remains of the level of the given
task, from the given world on. -/
inductive Plan.Turns : Plan → Session → Task → World → Turn → Prop
  | done {session task world result world'} :
    Turns (done result world') session task world ⟨session, task, world, world'⟩
  | pass {session task world world' next} :
    Turns (pass world' next) session task world ⟨session, task, world, world'⟩
  | next {session task world world' next turn} (hturns : Turns next session task world' turn) :
    Turns (pass world' next) session task world turn
  | call {session task world session' part world' next} :
    Turns (call session' part world' next) session task world ⟨session, task, world, world'⟩
  | inside {session task world session' part world' next turn}
    (hturns : Turns (session'.plan world' part) session' part world' turn) :
    Turns (call session' part world' next) session task world turn
  | after {session task world session' part world' next result world'' turn}
    (hends : Ends (session'.plan world' part) result world'')
    (hturns : Turns (next result world'') session task world'' turn) :
    Turns (call session' part world' next) session task world turn

/-- While a task is evaluated from a world on, a level takes a turn. -/
def Session.Turns (session : Session) (world : World) (task : Task) (turn : Turn) : Prop :=
  (session.plan world task).Turns session task world turn

/-- What is different at the end of a run has been changed in one of its turns. -/
theorem Plan.Ends.exists_turn {α : Type} {plan : Plan} {session : Session} {task : Task}
    {result : Result} {world world' : World} (hends : plan.Ends result world') (f : World → α)
    (hne : f world ≠ f world') :
    ∃ turn, plan.Turns session task world turn ∧ f turn.before ≠ f turn.after := by
  induction hends generalizing session task world with
  | done => exact ⟨_, .done, hne⟩
  | @pass start next _ _ _ ih =>
      by_cases hpass : f world = f start
      · obtain ⟨turn, hturns, hchanges⟩ := ih (hpass ▸ hne)
        exact ⟨turn, .next hturns, hchanges⟩
      · exact ⟨_, .pass, hpass⟩
  | @call session' part start next _ middle _ _ hpart _ ihpart ihnext =>
      by_cases hcall : f world = f start
      · by_cases hinside : f start = f middle
        · obtain ⟨turn, hturns, hchanges⟩ := ihnext (hinside ▸ hcall ▸ hne)
          exact ⟨turn, .after hpart hturns, hchanges⟩
        · obtain ⟨turn, hturns, hchanges⟩ := ihpart hinside
          exact ⟨turn, .inside hturns, hchanges⟩
      · exact ⟨_, .call, hcall⟩

end Monkey
