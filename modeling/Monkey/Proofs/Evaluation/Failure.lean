import Monkey.Proofs.Builtin.Output
import Monkey.Proofs.Evaluation.Dialect

/-! # Errors end a run

Outside of loops an error of a part ends a level. So a run without loops ends with the error of any
task that delivers one, in the world that the task has left (`Plan.Begins.ends_error`). This is how
a refused write comes to light.
-/

namespace Monkey

theorem Plan.Local.next_error {session session' : Session} {task part : Task}
    {frame : Option FrameRef} {seen : List Value} {world start after : World}
    {next : Result → World → Plan}
    (hlocal : (Plan.call session' part start next).Local session task frame seen world)
    (htask : task.isRounds = false) (message : String) :
    next (.one (.error message)) after = .done (.one (.error message)) after := by
  cases hlocal with
  | relay => rfl
  | call _ _ habrupt =>
      rw [habrupt _ _ rfl]
      cases task with
      | loop => cases htask
      | _ => rfl

/-- A run without the rounds of a loop ends with the error of any of its tasks. -/
theorem Plan.Begins.ends_error {plan : Plan} {session session' : Session} {task task' : Task}
    {frame : Option FrameRef} {seen : List Value} {world start world' : World} {message : String}
    (hbegins : plan.Begins session' task' start)
    (hlocal : plan.Local session task frame seen world) (htask : task.isRounds = false)
    (hrounds : ∀ session' task' start, plan.Begins session' task' start → task'.isRounds = false)
    (hends : (session'.plan start task').Ends (.one (.error message)) world') :
    plan.Ends (.one (.error message)) world' := by
  have handed {session session' : Session} {task task' : Task} {frame : Option FrameRef}
      {seen : List Value} {world start : World} {next : Result → World → Plan}
      (hlocal : (Plan.call session' task' start next).Local session task frame seen world)
      (htask : task.isRounds = false)
      (hends : (session'.plan start task').Ends (.one (.error message)) world') :
      (Plan.call session' task' start next).Ends (.one (.error message)) world' := by
    refine .call hends ?_
    rw [hlocal.next_error htask]
    exact .done
  -- Each level has its own task, and the plan of a task that is handed on its own level.
  induction hbegins generalizing session task frame seen world with
  | here => exact handed hlocal htask hends
  | next _ ih =>
      obtain ⟨-, -, place, name, value, -, -, hnext⟩ := hlocal.of_pass
      exact .pass (ih hnext htask (fun _ _ _ h => hrounds _ _ _ (.next h)) hends)
  | @inside session₁ part start _ _ _ _ _ ih =>
      obtain ⟨place, entered, -, hpart⟩ := session₁.plan_local part start
      refine handed hlocal htask (ih hpart ?_ (fun _ _ _ h => hrounds _ _ _ (.inside h)) hends)
      exact hrounds _ _ _ .here
  | @after _ _ _ _ result middle _ _ _ hfirst hbegins ih =>
      obtain ⟨-, ⟨-, rfl⟩ | ⟨-, -, hafter⟩⟩ := hlocal.of_call
      · cases hbegins
      · exact .call hfirst (ih (hafter result middle (Task.proper_of_ends hfirst)) htask
          (fun _ _ _ h => hrounds _ _ _ (.after hfirst h)) hends)

/-! ## Refused writes -/

/-- The level of a call that writes a text which is refused. -/
theorem Builtin.Refused.ends {builtin : Builtin} {args : List Value} {world : World}
    (hrefused : Refused world builtin args) (session : Session) :
    ∃ console : Host.Console, console.Shut ∧
      (session.plan world (.apply (.builtin builtin) args)).Ends
        (.one (Fault.toValue (.console .outputClosed))) { world with console } := by
  obtain ⟨console, hshut, hrun⟩ := hrefused.run (fun _ => failure) session.foreign
  have hanswer : Plan.ofAnswer ((Eval.settle
      (builtin.call (fun _ => failure) session.foreign args)).run world) =
        .done (.one (Fault.toValue (.console .outputClosed))) { world with console } := by
    rw [run_settle, hrun]
    rfl
  have hplan : session.plan world (.apply (.builtin builtin) args) =
      .done (.one (Fault.toValue (.console .outputClosed))) { world with console } := by
    rw [Session.plan, Session.planApply, Session.planBuiltin, hanswer]
    cases hrefused with
    | put => simp
    | clear => simp
    | get hread hreject => simp [World.programLine?, hread, hreject]
  rw [hplan]
  exact ⟨console, hshut, .done⟩

theorem Dialect.isRounds_of_loopFree {task : Task} (htask : loopFree.task task) :
    task.isRounds = false := by
  cases task with
  | loop frame condition body => exact absurd htask (not_loopFree_loop condition body)
  | _ => rfl

/-- A run of code without loops in which a write is refused ends with the error about it, and the
console is shut. -/
theorem ends_of_refused {region : Region} {session session' : Session} {task : Task}
    {world middle : World} {builtin : Builtin} {args : List Value}
    (hrequires : (Dialect.loopFree.speech region).requires session task world)
    (hbegins : (session.plan world task).Begins session' (.apply (.builtin builtin) args) middle)
    (hrefused : builtin.Refused middle args) :
    ∃ world', world'.console.Shut ∧
      (session.plan world task).Ends (.one (Fault.toValue (.console .outputClosed))) world' := by
  have hkept := Dialect.kept_speech .loopFree region
  obtain ⟨frame, entered, -, hlocal⟩ := session.plan_local task world
  obtain ⟨console, hshut, hends⟩ := hrefused.ends session'
  refine ⟨_, hshut, hbegins.ends_error hlocal ?_ (fun _ _ _ h => ?_) hends⟩
  · exact Dialect.isRounds_of_loopFree hrequires.1.code
  · have hmeets := hkept _ _ _ hrequires
    exact Dialect.isRounds_of_loopFree (hkept.requires_of_begins hmeets h).1.code

end Monkey
