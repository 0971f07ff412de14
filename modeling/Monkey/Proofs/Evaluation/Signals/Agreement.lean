import Monkey.Proofs.Evaluation.Signals.Completeness

/-! # Values and signals agree

On well-formed memory the evaluator delivers an error or a pending return exactly when the signal is
raised, and data exactly when there is no signal, with the same changes to the world. Where the
evaluator has to test for abrupt values, the account with signals has a rule of its own, so a test
that is missing or in the wrong place would show here.
-/

namespace Monkey

theorem computes_iff_run {session : Session} {task : Task} {world world' : World}
    {outcome : Outcome} (hready : Ready session world) (htask : task.Ordinary) :
    Computes session task world outcome world' ↔
      ∃ fuel result, task.run fuel session world = some (result, world') ∧
        result.outcome = outcome := by
  constructor
  · intro hcomputes
    obtain ⟨result, hends, houtcome⟩ := hcomputes.delivered hready htask
    obtain ⟨fuel, hrun⟩ := Task.exists_run_iff.mpr hends
    exact ⟨fuel, result, hrun, houtcome⟩
  · rintro ⟨fuel, result, hrun, rfl⟩
    have hrequires : discipline.requires session task world := ⟨hready.1, htask, hready.2⟩
    exact kept_discipline.more_of_ends discipline_extends_computed hrequires
      (Task.ends_of_run hrun)

theorem computes_iff_of_run {session : Session} {task : Task} {world world' : World}
    {outcome : Outcome} {evaluate : Nat → Eval Value}
    (hready : Ready session world) (htask : task.Ordinary)
    (hrun : ∀ fuel, task.run fuel session world = ((evaluate fuel).run world).map (.map .one id)) :
    Computes session task world outcome world' ↔
      ∃ fuel value, (evaluate fuel).run world = some (value, world') ∧ value.outcome = outcome := by
  rw [computes_iff_run hready htask]
  constructor
  · rintro ⟨fuel, result, hresult, houtcome⟩
    rw [hrun fuel] at hresult
    obtain ⟨reply, hreply, hone⟩ := Option.map_eq_some_iff.mp hresult
    cases hone
    exact ⟨fuel, reply.1, hreply, houtcome⟩
  · rintro ⟨fuel, value, hvalue, houtcome⟩
    refine ⟨fuel, .one value, ?_, houtcome⟩
    rw [hrun fuel, hvalue]
    rfl

/-- Evaluation with errors and pending returns as values agrees with evaluation with signals: in
each direction an answer of one is the answer of the other, and the world afterwards is the same. -/
theorem eval_agrees_with_signals {session : Session} (hsession : session.Closed) {world : World}
    (hmemory : world.memory.WellFormed) (outcome : Outcome) (world' : World) :
    (∀ frame e, Computes session (.expr frame e) world outcome world' ↔
      ∃ fuel value, (session.evalExpr fuel frame e).run world = some (value, world') ∧
        value.outcome = outcome) ∧
    (∀ frame s, Computes session (.stmt frame s) world outcome world' ↔
      ∃ fuel value, (session.evalStmt fuel frame s).run world = some (value, world') ∧
        value.outcome = outcome) ∧
    (∀ frame body, Computes session (.block frame body .null) world outcome world' ↔
      ∃ fuel value, (session.evalBlock fuel frame body .null).run world = some (value, world') ∧
        value.outcome = outcome) ∧
    (∀ frame p, Computes session (.program frame p) world outcome world' ↔
      ∃ fuel value, (session.evalProgram fuel frame p).run world = some (value, world') ∧
        value.outcome = outcome) ∧
    ∀ callee args, (∀ arg ∈ args, arg.isAbrupt = false) →
      (Computes session (.apply callee args) world outcome world' ↔
        ∃ fuel value, (session.apply fuel callee args).run world = some (value, world') ∧
          value.outcome = outcome) := by
  refine ⟨fun frame e => ?_, fun frame s => ?_, fun frame body => ?_, fun frame p => ?_,
    fun callee args hargs => ?_⟩
  · exact computes_iff_of_run ⟨hsession, hmemory⟩ trivial fun _ => rfl
  · exact computes_iff_of_run ⟨hsession, hmemory⟩ trivial fun _ => rfl
  · exact computes_iff_of_run ⟨hsession, hmemory⟩ rfl fun _ => rfl
  · exact computes_iff_of_run ⟨hsession, hmemory⟩ trivial fun _ => rfl
  · exact computes_iff_of_run ⟨hsession, hmemory⟩ hargs fun _ => rfl

/-- A loop whose body fails delivers a new array with the error, and calling what is not a function
raises an error. -/
theorem failing_loop_agrees_with_signals :
    Session.fresh.Closed ∧ World.fresh.memory.WellFormed ∧
    Computes .fresh (.expr ⟨0⟩ (.loop (.bool true) [.expr (.ident "x")])) .fresh
      (.value (.array ⟨0⟩))
      { World.fresh with
        memory := (World.fresh.memory.newArray #[.error "identifier not found: x"]).2 } ∧
    (∀ arg ∈ [Value.null], arg.isAbrupt = false) ∧
    Computes .fresh (.apply (.boolean true) [.null]) .fresh
      (.signal (.err "not a function: BOOLEAN")) .fresh := by
  have hsession : Session.fresh.Closed := rfl
  have hmemory : World.fresh.memory.WellFormed := Memory.WellFormed.empty.newFrame none
  have hargs : ∀ arg ∈ [Value.null], arg.isAbrupt = false := by simp [Value.isAbrupt]
  refine ⟨hsession, hmemory, ?_, hargs, ?_⟩
  · apply ((eval_agrees_with_signals hsession hmemory _ _).1 ⟨0⟩ _).mpr
    exact ⟨6, .array ⟨0⟩, rfl, rfl⟩
  · apply ((eval_agrees_with_signals hsession hmemory _ _).2.2.2.2 _ _ hargs).mpr
    exact ⟨1, .error "not a function: BOOLEAN", rfl, rfl⟩

end Monkey
