import Monkey.Proofs.Evaluation

/-! # Answers

With one more unit of fuel the evaluator does what the plan of its task says and leaves the tasks
that the plan hands on to itself (`Session.run_succ`). So an answer stays when there is more fuel,
and a task has an answer exactly when its plan ends with it.
-/

namespace Monkey

/-! ## The evaluator follows its plans -/

/-- The answer of a plan, given the answers to the tasks that it hands on. -/
def Plan.run (answer : Session → Task → World → Option (Result × World)) :
    Plan → Option (Result × World)
  | done result world => some (result, world)
  | stuck => none
  | pass _ next => next.run answer
  | call session task world next =>
    (answer session task world).bind fun reply => (next reply.1 reply.2).run answer

section

variable {answer : Session → Task → World → Option (Result × World)} {session : Session}
  {task : Task} {computation : Eval Value}

/-- The computation has the answers of the plans. -/
def Follows (answer : Session → Task → World → Option (Result × World)) (computation : Eval Value)
    (plan : World → Plan) : Prop :=
  ∀ world, (computation.run world).map (.map .one id) = (plan world).run answer

theorem follows_pure (value : Value) : Follows answer (pure value) (Plan.done (.one value)) :=
  fun _ => rfl

theorem follows_ofMemory (f : Memory → Value) :
    Follows answer (Eval.ofMemory f) fun world => .done (.one (f world.memory)) world :=
  fun _ => rfl

theorem follows_newArray (elements : Array Value) :
    Follows answer (Eval.newArray elements) (Plan.newArray elements) :=
  fun _ => rfl

theorem follows_bind {next : Value → Eval Value} {nextPlan : Result → World → Plan}
    (htask : ∀ world, (computation.run world).map (.map .one id) = answer session task world)
    (hnext : ∀ value, Follows answer (next value) (nextPlan (.one value))) :
    Follows answer (computation >>= next) fun world => .call session task world nextPlan := by
  intro world
  change _ = (answer session task world).bind _
  rw [← htask world, StateT.run_bind]
  cases computation.run world with
  | none => rfl
  | some reply => exact hnext reply.1 reply.2

theorem follows_call
    (htask : ∀ world, (computation.run world).map (.map .one id) = answer session task world) :
    Follows answer computation fun world => .call session task world .done := by
  intro world
  rw [htask world]
  exact (Option.bind_fun_some _).symm

theorem follows_andThen {next : Value → Eval Value} {nextPlan : Value → World → Plan}
    (htask : ∀ world, (computation.run world).map (.map .one id) = answer session task world)
    (hnext : ∀ value, Follows answer (next value) (nextPlan value)) :
    Follows answer (Eval.andThen computation next) fun world =>
      .call session task world (Plan.andThen nextPlan) := by
  apply follows_bind htask
  intro value world
  by_cases habrupt : value.isAbrupt
  · simp only [habrupt, if_true, Plan.andThen]
    rfl
  · simp only [habrupt, Bool.false_eq_true, if_false, Plan.andThen]
    exact hnext value world

theorem follows_withValues {several : Eval (Except Value (List Value))}
    {next : List Value → Eval Value} {nextPlan : List Value → World → Plan}
    (htask : ∀ world, (several.run world).map (.map .ofExcept id) = answer session task world)
    (hnext : ∀ values, Follows answer (next values) (nextPlan values)) :
    Follows answer
      (do
        match ← several with
        | .ok values => next values
        | .error abrupt => return abrupt)
      fun world => .call session task world (Plan.withValues nextPlan) := by
  intro world
  change _ = (answer session task world).bind _
  rw [← htask world, StateT.run_bind]
  rcases several.run world with _ | ⟨_ | values, world'⟩
  · rfl
  · rfl
  · exact hnext values world'

end

/-- The answers of the evaluator with the given fuel. -/
def answers (fuel : Nat) (session : Session) (task : Task) (world : World) :
    Option (Result × World) :=
  task.run fuel session world

namespace Session

variable (fuel : Nat) (session : Session) (frame : FrameRef)

theorem follows_planExpr (e : Expr) :
    Follows (answers fuel) (session.evalExpr (fuel + 1) frame e)
      fun world => session.planExpr frame world e := by
  cases e with
  | ident name => exact follows_ofMemory _
  | int value => exact follows_pure _
  | float value => exact follows_pure _
  | bool value => exact follows_pure _
  | string value => exact follows_pure _
  | array elements => exact follows_withValues (fun _ => rfl) fun values => follows_newArray _
  | unary op operand => exact follows_andThen (fun _ => rfl) fun value => follows_pure _
  | binary op left right =>
      apply follows_andThen fun _ => rfl
      intro a
      exact follows_andThen (fun _ => rfl) fun b => follows_pure _
  | index collection index =>
      apply follows_andThen fun _ => rfl
      intro a
      exact follows_andThen (fun _ => rfl) fun b => follows_ofMemory _
  | conditional condition consequence alternative =>
      apply follows_andThen fun _ => rfl
      intro decision
      by_cases htrue : decision.isTruthy
      · simp only [htrue, if_true]
        exact follows_call fun _ => rfl
      · simp only [htrue, Bool.false_eq_true, if_false]
        exact follows_call fun _ => rfl
  | loop condition body => exact follows_call fun _ => rfl
  | function params body => exact fun _ => rfl
  | call callee args =>
      apply follows_andThen fun _ => rfl
      intro f
      exact follows_withValues (fun _ => rfl) fun values => follows_call fun _ => rfl

theorem follows_planStmt (s : Stmt) :
    Follows (answers fuel) (session.evalStmt (fuel + 1) frame s)
      fun world => session.planStmt frame world s := by
  cases s with
  | bind name value => exact follows_andThen (fun _ => rfl) fun v => fun _ => rfl
  | ret value => exact follows_andThen (fun _ => rfl) fun v => follows_pure _
  | expr value => exact follows_call fun _ => rfl
  | block body => exact follows_call fun _ => rfl

theorem follows_plan_loop (condition : Expr) (body : Block) (collected : Array Value) :
    Follows (answers fuel) (session.evalLoop (fuel + 1) frame condition body collected)
      fun world => session.plan world (.loop frame condition body collected) := by
  apply follows_andThen fun _ => rfl
  intro decision
  by_cases htrue : decision.isTruthy
  · simp only [htrue, if_true]
    apply follows_bind fun _ => rfl
    intro value
    cases value with
    | error message => exact follows_newArray _
    | returned value => exact follows_pure _
    | _ => exact follows_call fun _ => rfl
  · simp only [htrue, Bool.false_eq_true, if_false]
    exact follows_newArray collected

theorem follows_plan_block (body : Block) (value : Value) :
    Follows (answers fuel) (session.evalBlock (fuel + 1) frame body value)
      fun world => session.plan world (.block frame body value) := by
  cases body with
  | nil => exact follows_pure value
  | cons first rest => exact follows_andThen (fun _ => rfl) fun v => follows_call fun _ => rfl

theorem follows_plan_program (p : Program) :
    Follows (answers fuel) (session.evalProgram (fuel + 1) frame p)
      fun world => session.plan world (.program frame p) :=
  follows_bind (fun _ => rfl) fun value => follows_pure value.unwrapReturn

theorem run_evalExprs (es : List Expr) (world : World) :
    ((session.evalExprs (fuel + 1) frame es).run world).map (.map .ofExcept id) =
      (session.plan world (.exprs frame es)).run (answers fuel) := by
  cases es with
  | nil => rfl
  | cons first rest =>
      change _ = (answers fuel session (.expr frame first) world).bind _
      rw [answers, Task.run, evalExprs, StateT.run_bind]
      rcases (session.evalExpr fuel frame first).run world with _ | ⟨value, world'⟩
      · rfl
      · change Option.map _ ((if value.isAbrupt then _ else _ : Eval _).run world') =
          (if value.isAbrupt then _ else _ : Plan).run _
        by_cases habrupt : value.isAbrupt
        · simp only [habrupt, if_true]
          rfl
        · simp only [habrupt, Bool.false_eq_true, if_false]
          change _ = (answers fuel session (.exprs frame rest) world').bind _
          rw [answers, Task.run, StateT.run_bind]
          rcases (session.evalExprs fuel frame rest).run world' with _ | ⟨_ | values, world''⟩
          · rfl
          · rfl
          · rfl

theorem run_binding (answer : Session → Task → World → Option (Result × World))
    (next : World → Plan) (entries : List (String × Value)) (world : World) :
    (Plan.binding frame next entries world).run answer =
      (next { world with memory := world.memory.bindAll frame entries }).run answer := by
  induction entries generalizing world with
  | nil => rfl
  | cons entry rest ih => exact ih _

theorem run_ofAnswer (answer : Session → Task → World → Option (Result × World))
    (reply : Option (Value × World)) :
    (Plan.ofAnswer reply).run answer = reply.map (.map .one id) := by
  cases reply with
  | none => rfl
  | some reply => rfl

theorem follows_planBuiltin (builtin : Builtin) (args : List Value) :
    Follows (answers fuel) (session.apply (fuel + 1) (.builtin builtin) args)
      fun world => session.planBuiltin world builtin args := by
  intro world
  change _ = (session.planBuiltin world builtin args).run _
  rw [planBuiltin]
  by_cases hget : builtin = .get ∧ args = []
  · obtain ⟨rfl, rfl⟩ := hget
    change ((Eval.settle (Builtin.callGet _)).run world).map _ = _
    rw [Builtin.run_settle_callGet]
    simp only [and_self, if_true]
    cases world.programLine? with
    | none => exact (run_ofAnswer _ _).symm
    | some line =>
        have hline : Follows (answers fuel) (session.standard.evalProgram fuel session.top line.1)
            fun world => .call session.standard (.program session.top line.1) world .done :=
          follows_call fun _ => rfl
        exact hline line.2
  · rw [if_neg hget, run_ofAnswer,
      ← Builtin.call_eq_call (session.standard.evalProgram fuel session.top) _ _ _ _ hget]
    rfl

theorem follows_planApply (callee : Value) (args : List Value) :
    Follows (answers fuel) (session.apply (fuel + 1) callee args)
      fun world => session.planApply world callee args := by
  cases callee with
  | function ref =>
      intro world
      change _ = (session.planApply world (.function ref) args).run _
      rw [planApply, apply, StateT.run_bind]
      change ((some (world.memory.function? ref, world)).bind _).map _ = _
      rw [Option.bind_some]
      cases world.memory.function? ref with
      | none => rfl
      | some function =>
          by_cases harity : function.params.length = args.length
          · simp only [harity, if_true]
            rw [run_binding]
            have hbody (frame : FrameRef) :
                Follows (answers fuel)
                  (do return (← session.evalBlock fuel frame function.body .null).unwrapReturn)
                  fun world => .call session (.block frame function.body .null) world
                    fun result => .done result.unwrapReturn :=
              follows_bind (fun _ => rfl) fun value => follows_pure value.unwrapReturn
            exact hbody _ _
          · simp only [harity, if_false]
            rfl
  | builtin builtin => exact follows_planBuiltin fuel session builtin args
  | _ => exact follows_pure _

theorem run_succ (task : Task) (world : World) :
    task.run (fuel + 1) session world = (session.plan world task).run (answers fuel) := by
  cases task with
  | expr frame e => exact follows_planExpr fuel session frame e world
  | exprs frame es => exact run_evalExprs fuel session frame es world
  | loop frame condition body collected =>
      exact follows_plan_loop fuel session frame condition body collected world
  | stmt frame s => exact follows_planStmt fuel session frame s world
  | block frame body value => exact follows_plan_block fuel session frame body value world
  | apply callee args => exact follows_planApply fuel session callee args world
  | program frame p => exact follows_plan_program fuel session frame p world

theorem run_zero (task : Task) (world : World) : task.run 0 session world = none := by
  cases task with
  | _ => rfl

end Session

/-! ## Answers without fuel -/

/-- A plan ends with a result in a world. -/
inductive Plan.Ends : Plan → Result → World → Prop
  | done {result world} : Ends (done result world) result world
  | pass {world next result world'} :
    Ends next result world' → Ends (pass world next) result world'
  | call {session task world next result world' result' world''} :
    Ends (session.plan world task) result world' →
    Ends (next result world') result' world'' →
    Ends (call session task world next) result' world''

namespace Plan

variable {plan : Plan} {result : Result} {world : World}

theorem ends_done_iff {result' : Result} {world' : World} :
    (done result world).Ends result' world' ↔ result' = result ∧ world' = world := by
  constructor
  · rintro ⟨⟩
    exact ⟨rfl, rfl⟩
  · rintro ⟨rfl, rfl⟩
    exact .done

/-- A plan ends in one way only. -/
theorem Ends.unique {result' : Result} {world' : World} (hends : plan.Ends result world)
    (hends' : plan.Ends result' world') : result = result' ∧ world = world' := by
  induction hends generalizing result' world' with
  | done =>
      cases hends'
      exact ⟨rfl, rfl⟩
  | pass _ ih =>
      cases hends' with
      | pass hnext => exact ih hnext
  | call _ _ ihtask ihnext =>
      cases hends' with
      | call htask hnext =>
          obtain ⟨rfl, rfl⟩ := ihtask htask
          exact ihnext hnext

theorem ends_of_run {answer : Session → Task → World → Option (Result × World)}
    (hanswer : ∀ session task world result world',
      answer session task world = some (result, world') →
        (session.plan world task).Ends result world')
    (hrun : plan.run answer = some (result, world)) : plan.Ends result world := by
  induction plan with
  | done result' world' =>
      cases hrun
      exact .done
  | stuck => cases hrun
  | pass world' next ih => exact .pass (ih hrun)
  | call session task world' next ih =>
      obtain ⟨reply, hreply, hnext⟩ := Option.bind_eq_some_iff.mp hrun
      exact .call (hanswer _ _ _ _ _ hreply) (ih _ _ hnext)

theorem run_mono {answer answer' : Session → Task → World → Option (Result × World)}
    (hanswer : ∀ session task world reply,
      answer session task world = some reply → answer' session task world = some reply)
    {reply : Result × World} (hrun : plan.run answer = some reply) :
    plan.run answer' = some reply := by
  induction plan with
  | done result world => exact hrun
  | stuck => cases hrun
  | pass world next ih => exact ih hrun
  | call session task world next ih =>
      obtain ⟨inner, hinner, hnext⟩ := Option.bind_eq_some_iff.mp hrun
      exact Option.bind_eq_some_iff.mpr ⟨inner, hanswer _ _ _ _ hinner, ih _ _ hnext⟩

end Plan

namespace Task

variable {fuel fuel' : Nat} {session : Session} {task : Task} {world world' : World}
  {result : Result}

/-- More fuel keeps an answer. -/
theorem run_mono (hle : fuel ≤ fuel') {reply : Result × World}
    (hrun : task.run fuel session world = some reply) :
    task.run fuel' session world = some reply := by
  induction fuel generalizing fuel' session task world reply with
  | zero =>
      rw [Session.run_zero] at hrun
      cases hrun
  | succ fuel ih =>
      obtain ⟨fuel', rfl⟩ : ∃ n, fuel' = n + 1 := ⟨fuel' - 1, by omega⟩
      rw [Session.run_succ] at hrun ⊢
      exact Plan.run_mono (fun _ _ _ _ => ih (by omega)) hrun

theorem ends_of_run (hrun : task.run fuel session world = some (result, world')) :
    (session.plan world task).Ends result world' := by
  induction fuel generalizing session task world result world' with
  | zero =>
      rw [Session.run_zero] at hrun
      cases hrun
  | succ fuel ih =>
      rw [Session.run_succ] at hrun
      exact Plan.ends_of_run (fun _ _ _ _ _ => ih) hrun

end Task

theorem Plan.Ends.exists_run {plan : Plan} {result : Result} {world : World}
    (hends : plan.Ends result world) : ∃ fuel, plan.run (answers fuel) = some (result, world) := by
  induction hends with
  | done => exact ⟨0, rfl⟩
  | pass _ ih => exact ih
  | @call session task world next result world' result' world'' _ _ ihtask ihnext =>
      -- The task and what follows it may need different amounts of fuel; the larger one is enough.
      obtain ⟨fuel, htask⟩ := ihtask
      obtain ⟨fuel', hnext⟩ := ihnext
      rw [← Session.run_succ] at htask
      refine ⟨max (fuel + 1) fuel', Option.bind_eq_some_iff.mpr ⟨(result, world'), ?_, ?_⟩⟩
      · exact Task.run_mono (Nat.le_max_left ..) htask
      · exact Plan.run_mono (fun _ _ _ _ => Task.run_mono (Nat.le_max_right ..)) hnext

/-- The evaluator answers, given enough fuel, with what the plan of the task ends with. -/
theorem Task.exists_run_iff {session : Session} {task : Task} {world world' : World}
    {result : Result} :
    (∃ fuel, task.run fuel session world = some (result, world')) ↔
      (session.plan world task).Ends result world' := by
  constructor
  · rintro ⟨fuel, hrun⟩
    exact Task.ends_of_run hrun
  · intro hends
    obtain ⟨fuel, hrun⟩ := hends.exists_run
    rw [← Session.run_succ] at hrun
    exact ⟨fuel + 1, hrun⟩

end Monkey
