import Monkey.Proofs.Inline

/-! # Evaluation with arrays inline

The evaluator for values whose arrays are inline. All that it changes are scopes: a new frame for a
call, a binding in a frame. Its tasks, the levels of its work and its traces are those of the
evaluator that works on memory. There is no answer where `add` is called.
-/

namespace Monkey.Inline

/-- What the evaluator can be asked for. -/
inductive Task
  | expr (frame : FrameRef) (e : Expr)
  | exprs (frame : FrameRef) (es : List Expr)
  | loop (frame : FrameRef) (condition : Expr) (body : Block) (collected : List Inline)
  | stmt (frame : FrameRef) (s : Stmt)
  | block (frame : FrameRef) (body : Block) (value : Inline)
  | apply (callee : Inline) (args : List Inline)
  | program (frame : FrameRef) (p : Program)

/-- A value, or the values of several expressions none of which was abrupt. -/
inductive Result
  | one (value : Inline)
  | many (values : List Inline)

def Result.unwrapReturn : Result → Result
  | one value => one value.unwrapReturn
  | many values => many values

/-- What happens at one level of evaluation: it ends, it has no answer, it passes through scopes, or
it hands a task on and continues with the result. -/
inductive Plan
  | done (result : Result) (scopes : Scopes)
  | stuck
  | pass (scopes : Scopes) (next : Plan)
  | call (task : Task) (scopes : Scopes) (next : Result → Scopes → Plan)

namespace Plan

/-- Continues with a value unless it is abrupt. -/
def andThen (next : Inline → Scopes → Plan) : Result → Scopes → Plan
  | .one value, scopes => if value.isAbrupt then done (.one value) scopes else next value scopes
  | .many _, _ => stuck

/-- Continues with values unless one was abrupt. -/
def withValues (next : List Inline → Scopes → Plan) : Result → Scopes → Plan
  | .one abrupt, scopes => done (.one abrupt) scopes
  | .many values, scopes => next values scopes

/-- Binds names one by one. -/
def binding (frame : FrameRef) (next : Scopes → Plan) : List (String × Inline) → Scopes → Plan
  | [], scopes => next scopes
  | entry :: rest, scopes =>
    pass scopes (binding frame next rest (scopes.bind frame entry.1 entry.2))

end Plan

def planExpr (frame : FrameRef) (scopes : Scopes) : Expr → Plan
  | .ident name => .done (.one (scopes.resolve frame name)) scopes
  | .int value => .done (.one (.integer value)) scopes
  | .float value => .done (.one (.float value)) scopes
  | .bool value => .done (.one (.boolean value)) scopes
  | .string value => .done (.one (.string value)) scopes
  | .array elements =>
    .call (.exprs frame elements) scopes <| .withValues fun values => .done (.one (.array values))
  | .unary op operand =>
    .call (.expr frame operand) scopes <| .andThen fun operand => .done (.one (unary op operand))
  | .binary op left right =>
    .call (.expr frame left) scopes <| .andThen fun left scopes =>
      .call (.expr frame right) scopes <| .andThen fun right =>
        .done (.one (binary op left right))
  | .index collection position =>
    .call (.expr frame collection) scopes <| .andThen fun collection scopes =>
      .call (.expr frame position) scopes <| .andThen fun position =>
        .done (.one (index collection position))
  | .conditional condition consequence alternative =>
    .call (.expr frame condition) scopes <| .andThen fun condition scopes =>
      let body := if condition.isTruthy then consequence else alternative.getD []
      .call (.block frame body .null) scopes .done
  | .loop condition body => .call (.loop frame condition body []) scopes .done
  | .function params body => .done (.one (.function ⟨params, body, frame⟩)) scopes
  | .call callee args =>
    .call (.expr frame callee) scopes <| .andThen fun callee scopes =>
      .call (.exprs frame args) scopes <| .withValues fun args scopes =>
        .call (.apply callee args) scopes .done

def planStmt (frame : FrameRef) (scopes : Scopes) : Stmt → Plan
  | .bind name value =>
    .call (.expr frame value) scopes <| .andThen fun value scopes =>
      .done (.one .null) (scopes.bind frame name value)
  | .ret value =>
    .call (.expr frame value) scopes <| .andThen fun value => .done (.one (.returned value))
  | .expr value => .call (.expr frame value) scopes .done
  | .block body => .call (.block frame body .null) scopes .done

def planApply (scopes : Scopes) : Inline → List Inline → Plan
  | .function f, args =>
    if f.params.length = args.length then
      let (frame, scopes) := scopes.newFrame (some f.frame)
      .binding frame
        (fun scopes =>
          .call (.block frame f.body .null) scopes fun result => .done result.unwrapReturn)
        (f.params.zip args) scopes
    else
      .done (.one (fault (.argumentCount f.params.length args.length))) scopes
  | .builtin b, args =>
    match call b args with
    | some value => .done (.one value) scopes
    | none => .stuck
  | value, _ => .done (.one (fault (.notFunction value.kind))) scopes

/-- How a loop goes on after its body. -/
def planRound (frame : FrameRef) (condition : Expr) (body : Block) (collected : List Inline) :
    Result → Scopes → Plan
  | .one (.error message), scopes => .done (.one (.array [.error message])) scopes
  | .one (.returned value), scopes => .done (.one (.returned value)) scopes
  | .one value, scopes => .call (.loop frame condition body (collected ++ [value])) scopes .done
  | .many _, _ => .stuck

/-- What happens at the level of a task itself. -/
def plan (scopes : Scopes) : Task → Plan
  | .expr frame e => planExpr frame scopes e
  | .exprs _ [] => .done (.many []) scopes
  | .exprs frame (first :: rest) =>
    .call (.expr frame first) scopes <| .andThen fun value scopes =>
      .call (.exprs frame rest) scopes <| .withValues fun values => .done (.many (value :: values))
  | .loop frame condition body collected =>
    .call (.expr frame condition) scopes <| .andThen fun decision scopes =>
      if decision.isTruthy then
        .call (.block frame body .null) scopes (planRound frame condition body collected)
      else
        .done (.one (.array collected)) scopes
  | .stmt frame s => planStmt frame scopes s
  | .block _ [] value => .done (.one value) scopes
  | .block frame (first :: rest) _ =>
    .call (.stmt frame first) scopes <| .andThen fun value scopes =>
      .call (.block frame rest value) scopes .done
  | .apply callee args => planApply scopes callee args
  | .program frame p =>
    .call (.block frame p .null) scopes fun result => .done result.unwrapReturn

/-- The answer of a plan, given the answers to the tasks that it hands on. -/
def Plan.run (answer : Task → Scopes → Option (Result × Scopes)) : Plan → Option (Result × Scopes)
  | done result scopes => some (result, scopes)
  | stuck => none
  | pass _ next => next.run answer
  | call task scopes next =>
    (answer task scopes).bind fun reply => (next reply.1 reply.2).run answer

/-- The evaluator: it follows the plan of a task, with less fuel for the tasks that it hands on. -/
def eval : Nat → Task → Scopes → Option (Result × Scopes)
  | 0, _, _ => none
  | fuel + 1, task, scopes => (plan scopes task).run (eval fuel)

/-- Evaluates a source text in a frame, unless it is rejected. -/
def evalSource (fuel : Nat) (top : FrameRef) (text : String) :
    StateT Scopes Option (Except (List Diagnostic) Inline) := fun scopes =>
  let parsed := parse text
  if parsed.diagnostics.isEmpty then
    match eval fuel (.program top parsed.program) scopes with
    | some (.one value, scopes) => some (.ok value, scopes)
    | _ => none
  else
    some (.error parsed.diagnostics, scopes)

/-! ## Traces -/

/-- A task that has come to an end. -/
structure Step where
  task : Task
  before : Scopes
  result : Result
  after : Scopes

def Task.isRounds : Task → Bool
  | .loop .. => true
  | _ => false

namespace Plan

/-- A plan ends with a result in scopes after the given steps. -/
inductive Takes : Plan → List Step → Result → Scopes → Prop
  | done {result scopes} : Takes (done result scopes) [] result scopes
  | pass {scopes next steps result scopes'} :
    Takes next steps result scopes' → Takes (pass scopes next) steps result scopes'
  | call {task scopes next inner result scopes' outer result' scopes''} :
    Takes (plan scopes task) inner result scopes' →
    Takes (next result scopes') outer result' scopes'' →
    Takes (call task scopes next) (inner ++ ⟨task, scopes, result, scopes'⟩ :: outer) result'
      scopes''

/-- A plan comes to scopes after the given steps: a task begins there or has just come to an
end. -/
inductive Comes : Plan → List Step → Scopes → Prop
  | pass {scopes next} : Comes (pass scopes next) [] scopes
  | next {scopes next steps scopes'} :
    Comes next steps scopes' → Comes (pass scopes next) steps scopes'
  | call {task scopes next} : Comes (call task scopes next) [] scopes
  | inside {task scopes next steps scopes'} :
    Comes (plan scopes task) steps scopes' → Comes (call task scopes next) steps scopes'
  | ended {task scopes next inner result scopes'} (hrounds : task.isRounds = false) :
    Takes (plan scopes task) inner result scopes' →
    Comes (call task scopes next) (inner ++ [⟨task, scopes, result, scopes'⟩]) scopes'
  | after {task scopes next inner result scopes' outer scopes''} :
    Takes (plan scopes task) inner result scopes' →
    Comes (next result scopes') outer scopes'' →
    Comes (call task scopes next) (inner ++ ⟨task, scopes, result, scopes'⟩ :: outer) scopes''

end Plan

section

variable {plan : Plan} {fuel fuel' : Nat} {task : Task} {scopes scopes' : Scopes}
  {result : Result} {steps : List Step}

theorem Plan.exists_takes_of_run {answer : Task → Scopes → Option (Result × Scopes)}
    (hanswer : ∀ task scopes result scopes', answer task scopes = some (result, scopes') →
      ∃ steps, (Inline.plan scopes task).Takes steps result scopes')
    (hrun : plan.run answer = some (result, scopes')) :
    ∃ steps, plan.Takes steps result scopes' := by
  induction plan with
  | done result' scopes =>
      cases hrun
      exact ⟨[], .done⟩
  | stuck => cases hrun
  | pass scopes next ih =>
      obtain ⟨steps, htakes⟩ := ih hrun
      exact ⟨steps, .pass htakes⟩
  | call task scopes next ih =>
      obtain ⟨reply, hreply, hnext⟩ := Option.bind_eq_some_iff.mp hrun
      obtain ⟨inner, htask⟩ := hanswer _ _ _ _ hreply
      obtain ⟨outer, houter⟩ := ih _ _ hnext
      exact ⟨_, .call htask houter⟩

theorem Plan.run_mono {answer answer' : Task → Scopes → Option (Result × Scopes)}
    (hanswer : ∀ task scopes reply,
      answer task scopes = some reply → answer' task scopes = some reply)
    {reply : Result × Scopes} (hrun : plan.run answer = some reply) :
    plan.run answer' = some reply := by
  induction plan with
  | done result scopes => exact hrun
  | stuck => cases hrun
  | pass scopes next ih => exact ih hrun
  | call task scopes next ih =>
      obtain ⟨inner, hinner, hnext⟩ := Option.bind_eq_some_iff.mp hrun
      exact Option.bind_eq_some_iff.mpr ⟨inner, hanswer _ _ _ hinner, ih _ _ hnext⟩

/-- More fuel keeps an answer. -/
theorem eval_mono (hle : fuel ≤ fuel') {reply : Result × Scopes}
    (heval : eval fuel task scopes = some reply) : eval fuel' task scopes = some reply := by
  induction fuel generalizing fuel' task scopes reply with
  | zero => cases heval
  | succ fuel ih =>
      obtain ⟨fuel', rfl⟩ : ∃ n, fuel' = n + 1 := ⟨fuel' - 1, by omega⟩
      rw [eval] at heval ⊢
      exact Plan.run_mono (fun _ _ _ => ih (by omega)) heval

theorem exists_takes_of_eval (heval : eval fuel task scopes = some (result, scopes')) :
    ∃ steps, (Inline.plan scopes task).Takes steps result scopes' := by
  induction fuel generalizing task scopes result scopes' with
  | zero => cases heval
  | succ fuel ih => exact Plan.exists_takes_of_run (fun _ _ _ _ => ih) heval

theorem Plan.Takes.exists_run (htakes : plan.Takes steps result scopes') :
    ∃ fuel, plan.run (eval fuel) = some (result, scopes') := by
  induction htakes with
  | done => exact ⟨0, rfl⟩
  | pass _ ih => exact ih
  | @call task scopes next inner result scopes' outer result' scopes'' _ _ ihtask ihnext =>
      obtain ⟨fuel, htask⟩ := ihtask
      obtain ⟨fuel', hnext⟩ := ihnext
      rw [← eval] at htask
      refine ⟨max (fuel + 1) fuel', Option.bind_eq_some_iff.mpr ⟨(result, scopes'), ?_, ?_⟩⟩
      · exact eval_mono (Nat.le_max_left ..) htask
      · exact Plan.run_mono (fun _ _ _ => eval_mono (Nat.le_max_right ..)) hnext

/-- The evaluator answers, given enough fuel, with what the plan of the task ends with. -/
theorem exists_eval_iff :
    (∃ fuel, eval fuel task scopes = some (result, scopes')) ↔
      ∃ steps, (Inline.plan scopes task).Takes steps result scopes' := by
  constructor
  · rintro ⟨fuel, heval⟩
    exact exists_takes_of_eval heval
  · rintro ⟨steps, htakes⟩
    obtain ⟨fuel, hrun⟩ := htakes.exists_run
    rw [← eval] at hrun
    exact ⟨fuel + 1, hrun⟩

end

end Monkey.Inline
