import Monkey.Proofs.Builtin.Rules
import Monkey.Proofs.Evaluation.Dialect
import Monkey.Proofs.Host.Lines
import Monkey.Proofs.World

/-! # Lines that scripts read

Scripts read lines by calling `get`, at any depth of a run. The consoles that they read are those of
the calls, in the order in which the calls begin (`Plan.Draws`, and `Plan.Pulls` for a run that is
still going on). Nothing else that is evaluated uses the input, so each of them finds what the one
before has left.
-/

namespace Monkey

open Host

/-! ## Reads of a run -/

/-- The task is a call that reads a line. -/
def Task.isGet : Task → Bool
  | .apply (.builtin builtin) args => builtin = .get ∧ args = []
  | _ => false

/-- The consoles that the task itself reads when it begins in the world. -/
def Task.reads (task : Task) (world : World) : List Console :=
  if task.isGet then [world.console] else []

namespace Plan

/-- A plan ends, and these consoles have been read on the way. -/
inductive Draws : Plan → List Console → Result → World → Prop
  | done {result world} : Draws (done result world) [] result world
  | pass {world next reads result world'} :
    Draws next reads result world' → Draws (pass world next) reads result world'
  | call {session task world next inner result world' outer result' world''} :
    Draws (session.plan world task) inner result world' →
    Draws (next result world') outer result' world'' →
    Draws (call session task world next) (task.reads world ++ inner ++ outer) result' world''

/-- A plan comes to a world, and these consoles have been read so far. -/
inductive Pulls : Plan → List Console → World → Prop
  | done {result world} : Pulls (done result world) [] world
  | pass {world next} : Pulls (pass world next) [] world
  | next {world next reads world'} : Pulls next reads world' → Pulls (pass world next) reads world'
  | call {session task world next} : Pulls (call session task world next) [] world
  | inside {session task world next reads world'} :
    Pulls (session.plan world task) reads world' →
    Pulls (call session task world next) (task.reads world ++ reads) world'
  | after {session task world next inner result world' outer world''} :
    Draws (session.plan world task) inner result world' →
    Pulls (next result world') outer world'' →
    Pulls (call session task world next) (task.reads world ++ inner ++ outer) world''

theorem Ends.exists_draws {plan : Plan} {result : Result} {world : World}
    (hends : plan.Ends result world) : ∃ reads, plan.Draws reads result world := by
  induction hends with
  | done => exact ⟨[], .done⟩
  | pass _ ih =>
      obtain ⟨reads, hdraws⟩ := ih
      exact ⟨reads, .pass hdraws⟩
  | call _ _ ihtask ihnext =>
      obtain ⟨inner, htask⟩ := ihtask
      obtain ⟨outer, hnext⟩ := ihnext
      exact ⟨_, .call htask hnext⟩

theorem Draws.ends {plan : Plan} {reads : List Console} {result : Result} {world : World}
    (hdraws : plan.Draws reads result world) : plan.Ends result world := by
  induction hdraws with
  | done => exact .done
  | pass _ ih => exact .pass ih
  | call _ _ ihtask ihnext => exact .call ihtask ihnext

/-- At every moment of a run some consoles have been read. -/
theorem Reaches.exists_pulls {plan : Plan} {world : World} {values : List Value}
    (hreaches : plan.Reaches world values) : ∃ reads, plan.Pulls reads world := by
  induction hreaches with
  | done => exact ⟨[], .done⟩
  | pass => exact ⟨[], .pass⟩
  | next _ ih =>
      obtain ⟨reads, hpulls⟩ := ih
      exact ⟨reads, .next hpulls⟩
  | call => exact ⟨[], .call⟩
  | inside _ ih =>
      obtain ⟨reads, hpulls⟩ := ih
      exact ⟨_, .inside hpulls⟩
  | after hends _ ih =>
      obtain ⟨inner, hdraws⟩ := hends.exists_draws
      obtain ⟨outer, hpulls⟩ := ih
      exact ⟨_, .after hdraws hpulls⟩

/-- A task begins at a moment of the run. -/
theorem Begins.exists_reaches {plan : Plan} {session : Session} {task : Task} {world : World}
    (hbegins : plan.Begins session task world) : ∃ values, plan.Reaches world values := by
  induction hbegins with
  | here => exact ⟨_, .call⟩
  | next _ ih =>
      obtain ⟨values, hreaches⟩ := ih
      exact ⟨values, .next hreaches⟩
  | inside _ ih =>
      obtain ⟨values, hreaches⟩ := ih
      exact ⟨values, .inside hreaches⟩
  | after hends _ ih =>
      obtain ⟨values, hreaches⟩ := ih
      exact ⟨values, .after hends hreaches⟩

end Plan

/-! ## Calls of builtin functions -/

/-- The input of the world. -/
def World.Holds (input : List UInt8) (world : World) : Prop :=
  world.console.input = input

theorem holds_write (input : List UInt8) (text : String) :
    Preserves (World.Holds input) (Printing.write text) := by
  rintro world result world' hinput ⟨⟩
  exact hinput

namespace Builtin

variable {input : List UInt8} {builtin : Builtin} {args : List Value} {world world' : World}

theorem holds_rules : OutputRules fun _ call => Preserves (World.Holds input) call where
  toSequential := Preserves.sequential
  fail _ := .throw _
  elements _ := .lift fun | _, _, _, hinput, rfl => hinput
  text := .text
  newArray _ := .lift fun | _, _, _, hinput, rfl => hinput
  append _ _ := .lift fun | _, _, _, hinput, rfl => hinput
  readFile path := by
    intro world result world' hinput hrun
    rw [run_readFile] at hrun
    cases hrun
    exact hinput
  writeFile path text := by
    intro world result world' hinput hrun
    rw [run_writeFile] at hrun
    cases hrun
    exact hinput
  write text := (holds_write input text).adapt _
  levels := .lift fun | _, _, _, hinput, rfl => hinput
  endless := .lift nofun

/-- Only `get` reads. -/
theorem holds_call (hget : ¬ (builtin = .get ∧ args = [])) : Preserves (World.Holds input)
    (builtin.call (fun _ => failure) (fun name _ => throw (.unbound name)) args) :=
  holds_rules.call hget

/-- A call of `get` has read a line, even if it then evaluates nothing. -/
theorem input_of_callGet {result : Except Fault Value}
    (hrun : (callGet fun _ => failure).run.run world = some (result, world')) :
    world'.console.input = Console.afterLine world.console.input := by
  rw [callGet, run_bind, run_readLine, Console.readLine_snd] at hrun
  rcases hread : world.console.readLine.1 with failure | _ | line
  · rw [hread] at hrun
    cases hrun
    rfl
  · rw [hread] at hrun
    cases hrun
    rfl
  · rw [hread] at hrun
    by_cases haccept : (parse line).diagnostics.isEmpty
    · simp only [Except.mapError, haccept, if_true] at hrun
      cases hrun
    · simp only [Except.mapError, haccept, Bool.false_eq_true, if_false] at hrun
      have hlist := (Preserves.printing
        (holds_write (Console.afterLine world.console.input))).diagnostics (parse line).diagnostics
      refine ((hlist.adapt _).bind fun _ => .pure _) _ _ _ ?_ hrun
      rfl

end Builtin

/-! ## Levels of evaluation -/

/-- What the task itself leaves of the input. -/
def Task.left (task : Task) (world : World) : List UInt8 :=
  if task.isGet then Console.afterLine world.console.input else world.console.input

theorem Task.pulled (task : Task) (world : World) :
    Pulled world.console.input (task.reads world) (task.left world) := by
  rw [Task.reads, Task.left]
  split
  · exact .single _
  · exact .nil

section

variable {session session' : Session} {task part : Task} {frame : Option FrameRef}
  {seen : List Value} {world world' : World} {result : Result}

theorem Task.left_of_not_get (htask : task.isGet = false) (world : World) :
    task.left world = world.console.input := by
  simp [left, htask]

theorem Task.Composite.isGet (htask : task.Composite) : task.isGet = false := by
  cases task with
  | apply callee args =>
      cases callee with
      | builtin builtin => exact absurd rfl (htask builtin args)
      | _ => rfl
  | _ => rfl

theorem Session.Closed.input (hsession : session.Closed) {builtin : Builtin} {args : List Value}
    {value : Value}
    (hrun : (Eval.settle (builtin.call (fun _ => failure) session.foreign args)).run world =
      some (value, world')) :
    world'.console.input = Task.left (.apply (.builtin builtin) args) world := by
  rw [hsession, run_settle] at hrun
  obtain ⟨⟨reply, _⟩, hcall, hvalue⟩ := Option.map_eq_some_iff.mp hrun
  cases hvalue
  by_cases hget : builtin = .get ∧ args = []
  · obtain ⟨rfl, rfl⟩ := hget
    exact Builtin.input_of_callGet hcall
  · rw [Task.left_of_not_get (by simpa [Task.isGet] using hget)]
    exact Builtin.holds_call hget _ _ _ rfl hcall

theorem Task.Does.input (hdoes : task.Does session frame world seen result world')
    (hsession : session.Closed) : world'.console.input = task.left world := by
  cases hdoes with
  | deliver htask | array htask => exact (Task.left_of_not_get htask.isGet world).symm
  | builtin hrun => exact hsession.input hrun
  | _ => rfl

theorem Task.Hands.input (hhands : task.Hands session frame world seen session' part world') :
    world'.console.input = task.left world := by
  cases hhands with
  | part hpart => exact (Task.left_of_not_get hpart.composite.isGet world).symm
  | line htask hread =>
      rw [htask, (World.outside_of_programLine? hread).2, Console.readLine_snd]
      rfl

theorem Task.Enters.console_eq (henters : task.Enters world frame world') :
    world'.console = world.console := by
  cases henters with
  | _ => rfl

theorem Task.Enters.left (henters : task.Enters world frame world') (other : Task) :
    other.left world' = other.left world := by
  rw [Task.left, Task.left, henters.console_eq]

end

/-! ## Runs -/

section

variable {session : Session} {task : Task} {frame : Option FrameRef} {seen : List Value}
  {plan : Plan} {reads : List Console} {world world' : World}

/-- What a run has read by its end are consoles that were read one after the other, from what its
task leaves of the input. -/
theorem Plan.Draws.pulled {result : Result} (hdraws : plan.Draws reads result world')
    (hlocal : plan.Local session task frame seen world) (hsession : session.Closed) :
    Pulled (task.left world) reads world'.console.input := by
  -- A task starts with what its caller has left, and what follows it with what the task has left.
  induction hdraws generalizing session task frame seen world with
  | done =>
      rw [hlocal.does.input hsession]
      exact .nil
  | pass _ ih =>
      obtain ⟨htask, -, place, name, value, -, -, hnext⟩ := hlocal.of_pass
      have hrest := ih hnext hsession
      rw [Task.left_of_not_get htask.isGet] at hrest ⊢
      exact hrest
  | @call session' part start next _ result middle _ _ _ htask hnext ihtask ihnext =>
      obtain ⟨hhands, hcase⟩ := hlocal.of_call
      have hsession' := hhands.closed hsession
      obtain ⟨place, entered, henters, hlocalPart⟩ := session'.plan_local part start
      have hpart := ihtask hlocalPart hsession'
      rw [henters.left] at hpart
      rw [← hhands.input]
      refine ((part.pulled start).append hpart).append ?_
      rcases hcase with ⟨-, rfl⟩ | ⟨hcomposite, -, hafter⟩
      · cases hnext
        exact .nil
      · have hrest := ihnext (hafter result middle (Task.proper_of_ends htask.ends)) hsession
        rwa [Task.left_of_not_get hcomposite.isGet] at hrest

theorem Task.pulled_of_draws {result : Result} (hsession : session.Closed)
    (hdraws : (session.plan world task).Draws reads result world') :
    Pulled (task.left world) reads world'.console.input := by
  obtain ⟨frame, entered, henters, hlocal⟩ := session.plan_local task world
  have htask := hdraws.pulled hlocal hsession
  rwa [henters.left] at htask

theorem Plan.Pulls.pulled (hpulls : plan.Pulls reads world')
    (hlocal : plan.Local session task frame seen world) (hsession : session.Closed) :
    Pulled (task.left world) reads world'.console.input := by
  induction hpulls generalizing session task frame seen world with
  | done =>
      rw [hlocal.does.input hsession]
      exact .nil
  | pass =>
      obtain ⟨htask, rfl, -⟩ := hlocal.of_pass
      rw [Task.left_of_not_get htask.isGet]
      exact .nil
  | next _ ih =>
      obtain ⟨htask, -, place, name, value, -, -, hnext⟩ := hlocal.of_pass
      have hrest := ih hnext hsession
      rw [Task.left_of_not_get htask.isGet] at hrest ⊢
      exact hrest
  | call =>
      rw [hlocal.of_call.1.input]
      exact .nil
  | @inside session' part start _ _ _ _ ih =>
      have hhands := hlocal.of_call.1
      obtain ⟨place, entered, henters, hlocalPart⟩ := session'.plan_local part start
      have hpart := ih hlocalPart (hhands.closed hsession)
      rw [henters.left] at hpart
      rw [← hhands.input]
      exact (part.pulled start).append hpart
  | @after session' part start next _ result middle _ _ htask hnext ih =>
      obtain ⟨hhands, hcase⟩ := hlocal.of_call
      have hpart := Task.pulled_of_draws (hhands.closed hsession) htask
      rw [← hhands.input]
      refine ((part.pulled start).append hpart).append ?_
      rcases hcase with ⟨-, rfl⟩ | ⟨hcomposite, -, hafter⟩
      · cases hnext
        exact .nil
      · have hrest := ih (hafter result middle (Task.proper_of_ends htask.ends)) hsession
        rwa [Task.left_of_not_get hcomposite.isGet] at hrest

theorem Task.pulled_of_pulls (hsession : session.Closed)
    (hpulls : (session.plan world task).Pulls reads world') :
    Pulled (task.left world) reads world'.console.input := by
  obtain ⟨frame, entered, henters, hlocal⟩ := session.plan_local task world
  have htask := hpulls.pulled hlocal hsession
  rwa [henters.left] at htask

end

/-- Where the input has come to its end there is no line to hear. -/
theorem Dialect.hears_of_input {dialect : Dialect} {session : Session} {task : Task} {world : World}
    (hsession : session.Closed) (hinput : world.console.input = []) :
    dialect.Hears (session.plan world task) := by
  intro session' world' p started hbegins hline
  obtain ⟨values, hreaches⟩ := hbegins.exists_reaches
  obtain ⟨reads, hpulls⟩ := hreaches.exists_pulls
  have hrest := (Task.pulled_of_pulls hsession hpulls).rest_eq
  have hleft : task.left world = [] := by
    rw [Task.left, hinput]
    exact ite_self []
  have hinput' : world'.console.input = [] := by simpa [hleft, cutLines] using hrest
  simp [World.programLine?, Console.readLine, hinput'] at hline

end Monkey
