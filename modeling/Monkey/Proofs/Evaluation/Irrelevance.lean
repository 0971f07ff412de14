import Monkey.Proofs.Builtin.Frames
import Monkey.Proofs.Evaluation.Confinement
import Monkey.Proofs.Evaluation.Dialect
import Monkey.Proofs.Memory.Scope

/-! # Bindings that nobody mentions

Frames are read by name and in no other way. So evaluation does the same whatever a frame binds a
name to that neither the code nor any function in memory mentions. The two runs are compared level
by level: they hand on the same tasks in worlds that differ in this one binding (`Plan.Lockstep`).
-/

namespace Monkey

/-! ## Memories that differ in one binding -/

namespace Memory

/-- The memories differ at most in what one frame binds one name to. -/
structure AlikeBut (place : FrameRef) (x : String) (memory memory' : Memory) : Prop where
  arrays : memory'.arrays = memory.arrays
  functions : memory'.functions = memory.functions
  outer : memory'.frames.map Frame.outer = memory.frames.map Frame.outer
  own : ∀ frame name, frame ≠ place ∨ name ≠ x → memory'.own? frame name = memory.own? frame name

variable {memory memory' : Memory} {place : FrameRef} {x : String}

namespace AlikeBut

theorem size_eq (halike : memory.AlikeBut place x memory') :
    memory'.frames.size = memory.frames.size := by
  simpa using congrArg Array.size halike.outer

theorem lookupWithin_eq (halike : memory.AlikeBut place x memory') {name : String}
    (hname : name ≠ x) (count : Nat) (frame : FrameRef) :
    memory'.lookupWithin name count frame = memory.lookupWithin name count frame := by
  induction count generalizing frame with
  | zero => rfl
  | succ count ih =>
      rw [lookupWithin_succ, lookupWithin_succ, outer?, outer?, halike.outer,
        halike.own frame name (.inr hname)]
      congr 2
      exact funext ih

/-- A bound name may itself be one of those that the memories do not share. -/
theorem bind (halike : memory.AlikeBut place x memory') (frame : FrameRef) (name : String)
    (value : Value) :
    (memory.bind frame name value).AlikeBut place x (memory'.bind frame name value) where
  arrays := halike.arrays
  functions := halike.functions
  outer := by rw [map_outer_bind, map_outer_bind, halike.outer]
  own frame' name' hne := by
    by_cases hsame : frame' = frame ∧ name' = name
    · obtain ⟨rfl, rfl⟩ := hsame
      rw [own?_bind_self, own?_bind_self, halike.size_eq]
    · have hother : frame' ≠ frame ∨ name' ≠ name := by tauto
      rw [own?_bind_of_ne value hother, own?_bind_of_ne value hother, halike.own _ _ hne]

theorem newFrame (halike : memory.AlikeBut place x memory') (outer : Option FrameRef) :
    (memory.newFrame outer).2.AlikeBut place x (memory'.newFrame outer).2 where
  arrays := halike.arrays
  functions := halike.functions
  outer := by simp [Memory.newFrame, halike.outer]
  own frame name hne := by rw [own?_newFrame, own?_newFrame, halike.own _ _ hne]

end AlikeBut

end Memory

/-- The worlds differ at most in what one frame binds one name to, and there they are as given. -/
structure World.AlikeBut (place : FrameRef) (x : String) (kept kept' : Option Value)
    (world world' : World) : Prop where
  memory : world.memory.AlikeBut place x world'.memory
  console : world'.console = world.console
  files : world'.files = world.files
  own : world.memory.own? place x = kept
  own' : world'.memory.own? place x = kept'

namespace World.AlikeBut

variable {place : FrameRef} {x : String} {kept kept' : Option Value} {world world' : World}

theorem resolve_eq (halike : world.AlikeBut place x kept kept' world') (session : Session)
    (frame : FrameRef) {name : String} (hname : name ≠ x) :
    session.resolve frame name world'.memory = session.resolve frame name world.memory := by
  have hlookup : world'.memory.lookup? frame name = world.memory.lookup? frame name :=
    halike.memory.lookupWithin_eq hname _ frame
  rw [Session.resolve, Session.resolve, hlookup]

theorem bind (halike : world.AlikeBut place x kept kept' world') (frame : FrameRef) {name : String}
    (hname : name ≠ x) (value : Value) :
    World.AlikeBut place x kept kept' { world with memory := world.memory.bind frame name value }
      { world' with memory := world'.memory.bind frame name value } where
  memory := halike.memory.bind frame name value
  console := halike.console
  files := halike.files
  own := (Memory.own?_bind_of_ne value (.inr hname.symm)).trans halike.own
  own' := (Memory.own?_bind_of_ne value (.inr hname.symm)).trans halike.own'

theorem newFrame (halike : world.AlikeBut place x kept kept' world') (outer : Option FrameRef) :
    World.AlikeBut place x kept kept' { world with memory := (world.memory.newFrame outer).2 }
      { world' with memory := (world'.memory.newFrame outer).2 } where
  memory := halike.memory.newFrame outer
  console := halike.console
  files := halike.files
  own := (Memory.own?_newFrame outer place x).trans halike.own
  own' := (Memory.own?_newFrame outer place x).trans halike.own'

/-- The second world is the first with other frames. -/
theorem eq_withFrames (halike : world.AlikeBut place x kept kept' world') :
    world' = world.withFrames world'.memory.frames := by
  obtain ⟨⟨frames, arrays, functions⟩, console, files⟩ := world'
  obtain ⟨⟨rfl, rfl, -, -⟩, rfl, rfl, -, -⟩ := halike
  rfl

/-- What leaves frames alone keeps the difference. -/
theorem withFrames (halike : world.AlikeBut place x kept kept' world') {after : World}
    (hframes : after.memory.frames = world.memory.frames) :
    after.AlikeBut place x kept kept' (after.withFrames world'.memory.frames) := by
  have hown (frame : FrameRef) (name : String) :
      after.memory.own? frame name = world.memory.own? frame name := by
    rw [Memory.own?, Memory.own?, hframes]
  refine ⟨⟨rfl, rfl, ?_, fun frame name hne => ?_⟩, rfl, rfl, ?_, halike.own'⟩
  · rw [hframes]
    exact halike.memory.outer
  · rw [hown]
    exact halike.memory.own frame name hne
  · rw [hown]
    exact halike.own

end World.AlikeBut

/-! ## Two runs in lockstep -/

/-- The plans end with the same result and hand on the same tasks, in worlds that are related. -/
def Plan.Lockstep (related : World → World → Prop) : Plan → Plan → Prop
  | done result world, done result' world' => result' = result ∧ related world world'
  | stuck, stuck => True
  | pass _ next, pass _ next' => next.Lockstep related next'
  | call session task world next, call session' task' world' next' =>
    session' = session ∧ task' = task ∧ related world world' ∧
      ∀ result after after', related after after' →
        (next result after).Lockstep related (next' result after')
  | _, _ => False

/-- The replies have the same result, in worlds that are related. -/
def SameReply (related : World → World → Prop) (reply reply' : Result × World) : Prop :=
  reply'.1 = reply.1 ∧ related reply.2 reply'.2

section

variable {related : World → World → Prop} {contract : Contract}

theorem rel_bind {α β : Type} {R : α → α → Prop} {S : β → β → Prop} {first first' : Option α}
    {next next' : α → Option β} (hfirst : Option.Rel R first first')
    (hnext : ∀ a a', R a a' → first = some a → Option.Rel S (next a) (next' a')) :
    Option.Rel S (first.bind next) (first'.bind next') := by
  cases hfirst with
  | some hrel => exact hnext _ _ hrel rfl
  | none => exact .none

theorem eq_none_iff_of_rel {α : Type} {R : α → α → Prop} {a a' : Option α}
    (hrel : Option.Rel R a a') : a = none ↔ a' = none := by
  cases hrel with
  | some => simp
  | none => simp

/-- Plans in lockstep have the same answer if the tasks that they hand on do. -/
theorem Plan.Lockstep.run {plan plan' : Plan} (hlockstep : plan.Lockstep related plan')
    (hkept : contract.Kept) {goal : Result → World → Prop} (hmeets : plan.Meets contract goal)
    {fuel : Nat}
    (htasks : ∀ session task world world', contract.requires session task world →
      related world world' → Option.Rel (SameReply related) (task.run fuel session world)
        (task.run fuel session world')) :
    Option.Rel (SameReply related) (plan.run (answers fuel)) (plan'.run (answers fuel)) := by
  induction plan generalizing plan' with
  | done result world =>
      cases plan' with
      | done => exact .some hlockstep
      | _ => exact hlockstep.elim
  | stuck =>
      cases plan' with
      | stuck => exact .none
      | _ => exact hlockstep.elim
  | pass world next ih =>
      cases plan' with
      | pass world' next' =>
          have hnext : next.Lockstep related next' := hlockstep
          rw [Plan.run, Plan.run]
          exact ih hnext hmeets.2
      | _ => exact hlockstep.elim
  | call session task world next ih =>
      cases plan' with
      | call session' task' world' next' =>
          obtain ⟨rfl, rfl, hworld, hnext⟩ := hlockstep
          obtain ⟨-, hrequires, hmeets⟩ := hmeets
          refine rel_bind (htasks _ _ _ _ hrequires hworld) fun reply reply' hsame hreply => ?_
          obtain ⟨result, after⟩ := reply
          obtain ⟨_, after'⟩ := reply'
          obtain ⟨rfl, hafter⟩ := hsame
          exact ih _ _ (hnext _ _ _ hafter) (hmeets _ _ (hkept.ensures_of_run hrequires hreply))
      | _ => exact hlockstep.elim

/-- A relation that every level keeps is one of the answers, however much fuel there is. -/
theorem Contract.Kept.sameReply (hkept : contract.Kept)
    (hlevel : ∀ session task world world', contract.requires session task world →
      related world world' →
        (session.plan world task).Lockstep related (session.plan world' task))
    (fuel : Nat) {session : Session} {task : Task} {world world' : World}
    (hrequires : contract.requires session task world) (hworld : related world world') :
    Option.Rel (SameReply related) (task.run fuel session world)
      (task.run fuel session world') := by
  induction fuel generalizing session task world world' with
  | zero =>
      rw [Session.run_zero, Session.run_zero]
      exact .none
  | succ fuel ih =>
      rw [Session.run_succ, Session.run_succ]
      exact (hlevel _ _ _ _ hrequires hworld).run hkept (hkept _ _ _ hrequires)
        fun _ _ _ _ => ih

/-! ## Levels in lockstep -/

section

variable {session : Session} {task : Task} {world world' : World}

theorem lockstep_relay (hworld : related world world') :
    (Plan.call session task world .done).Lockstep related (Plan.call session task world' .done) :=
  ⟨rfl, rfl, hworld, fun _ _ _ hafter => ⟨rfl, hafter⟩⟩

theorem lockstep_unwrapReturn (hworld : related world world') :
    (Plan.call session task world fun result => .done result.unwrapReturn).Lockstep related
      (Plan.call session task world' fun result => .done result.unwrapReturn) :=
  ⟨rfl, rfl, hworld, fun _ _ _ hafter => ⟨rfl, hafter⟩⟩

theorem lockstep_andThen {next : Value → World → Plan} (hworld : related world world')
    (hnext : ∀ value after after', related after after' →
      (next value after).Lockstep related (next value after')) :
    (Plan.call session task world (Plan.andThen next)).Lockstep related
      (Plan.call session task world' (Plan.andThen next)) := by
  refine ⟨rfl, rfl, hworld, fun result after after' hafter => ?_⟩
  cases result with
  | many => trivial
  | one value =>
      rw [Plan.andThen, Plan.andThen]
      split
      · exact ⟨rfl, hafter⟩
      · exact hnext value after after' hafter

theorem lockstep_withValues {next : List Value → World → Plan} (hworld : related world world')
    (hnext : ∀ values after after', related after after' →
      (next values after).Lockstep related (next values after')) :
    (Plan.call session task world (Plan.withValues next)).Lockstep related
      (Plan.call session task world' (Plan.withValues next)) := by
  refine ⟨rfl, rfl, hworld, fun result after after' hafter => ?_⟩
  cases result with
  | one => exact ⟨rfl, hafter⟩
  | many values => exact hnext values after after' hafter

end

end

section

variable {place : FrameRef} {x : String} {kept kept' : Option Value} {world world' : World}
  {session : Session} {task : Task}

theorem lockstep_newArray (halike : world.AlikeBut place x kept kept' world')
    (elements : Array Value) :
    (Plan.newArray elements world).Lockstep (World.AlikeBut place x kept kept')
      (Plan.newArray elements world') := by
  rw [halike.eq_withFrames]
  exact ⟨rfl, halike.withFrames rfl⟩

theorem lockstep_planExpr (halike : world.AlikeBut place x kept kept' world') (frame : FrameRef)
    {e : Expr} (he : (Dialect.without x).expr e) :
    (session.planExpr frame world e).Lockstep (World.AlikeBut place x kept kept')
      (session.planExpr frame world' e) := by
  cases e with
  | ident name =>
      have hname := Dialect.ne_of_without_ident he
      exact ⟨congrArg Result.one (halike.resolve_eq session frame hname), halike⟩
  | int | float | bool | string => exact ⟨rfl, halike⟩
  | array elements =>
      exact lockstep_withValues halike fun values _ _ halike' => lockstep_newArray halike' _
  | unary op operand => exact lockstep_andThen halike fun _ _ _ halike' => ⟨rfl, halike'⟩
  | binary op left right =>
      exact lockstep_andThen halike fun _ _ _ halike' =>
        lockstep_andThen halike' fun _ _ _ halike'' => ⟨rfl, halike''⟩
  | index collection index =>
      refine lockstep_andThen halike fun _ _ _ halike' =>
        lockstep_andThen halike' fun _ _ _ halike'' => ?_
      rw [halike''.eq_withFrames]
      exact ⟨rfl, halike''.withFrames rfl⟩
  | conditional condition consequence alternative =>
      exact lockstep_andThen halike fun _ _ _ halike' => lockstep_relay halike'
  | loop condition body => exact lockstep_relay halike
  | function params body =>
      rw [halike.eq_withFrames]
      exact ⟨rfl, halike.withFrames rfl⟩
  | call callee args =>
      exact lockstep_andThen halike fun _ _ _ halike' =>
        lockstep_withValues halike' fun _ _ _ halike'' => lockstep_relay halike''

theorem lockstep_planStmt (halike : world.AlikeBut place x kept kept' world') (frame : FrameRef)
    {s : Stmt} (hs : (Dialect.without x).stmt s) :
    (session.planStmt frame world s).Lockstep (World.AlikeBut place x kept kept')
      (session.planStmt frame world' s) := by
  cases s with
  | bind name value =>
      have hname := Dialect.ne_of_without_bind hs
      exact lockstep_andThen halike fun value _ _ halike' => ⟨rfl, halike'.bind frame hname value⟩
  | ret value => exact lockstep_andThen halike fun _ _ _ halike' => ⟨rfl, halike'⟩
  | expr value | block body => exact lockstep_relay halike

theorem lockstep_loop (halike : world.AlikeBut place x kept kept' world') (frame : FrameRef)
    (condition : Expr) (body : Block) (collected : Array Value) :
    (session.plan world (.loop frame condition body collected)).Lockstep
      (World.AlikeBut place x kept kept')
      (session.plan world' (.loop frame condition body collected)) := by
  refine lockstep_andThen halike fun decision _ _ halike' => ?_
  split
  · refine ⟨rfl, rfl, halike', fun result _ _ halike'' => ?_⟩
    cases result with
    | many => trivial
    | one value =>
        cases value with
        | error => exact lockstep_newArray halike'' _
        | returned => exact ⟨rfl, halike''⟩
        | _ => exact lockstep_relay halike''
  · exact lockstep_newArray halike' _

theorem lockstep_binding {frame : FrameRef} {next : World → Plan} {entries : List (String × Value)}
    (halike : world.AlikeBut place x kept kept' world')
    (hentries : ∀ entry ∈ entries, entry.1 ≠ x)
    (hnext : ∀ after after', after.AlikeBut place x kept kept' after' →
      (next after).Lockstep (World.AlikeBut place x kept kept') (next after')) :
    (Plan.binding frame next entries world).Lockstep (World.AlikeBut place x kept kept')
      (Plan.binding frame next entries world') := by
  induction entries generalizing world world' with
  | nil => exact hnext world world' halike
  | cons entry rest ih =>
      obtain ⟨hentry, hrest⟩ := List.forall_mem_cons.mp hentries
      exact ih (halike.bind frame hentry entry.2) hrest

theorem lockstep_planBuiltin (halike : world.AlikeBut place x kept kept' world')
    (hsession : session.Closed) (builtin : Builtin) (args : List Value) :
    (session.planBuiltin world builtin args).Lockstep (World.AlikeBut place x kept kept')
      (session.planBuiltin world' builtin args) := by
  have hanswer : (Plan.ofAnswer ((Eval.settle
      (builtin.call (fun _ => failure) session.foreign args)).run world)).Lockstep
      (World.AlikeBut place x kept kept') (Plan.ofAnswer ((Eval.settle
        (builtin.call (fun _ => failure) session.foreign args)).run world')) := by
    have hblind := builtin.frameBlind_call args
    rw [hsession, halike.eq_withFrames, run_settle, run_settle, hblind]
    cases hrun : (builtin.call (fun _ => failure) (fun name _ => throw (.unbound name))
        args).run.run world with
    | none => trivial
    | some reply => exact ⟨rfl, halike.withFrames (hblind.frames_eq hrun)⟩
  unfold Session.planBuiltin
  by_cases hget : builtin = .get ∧ args = []
  · simp only [hget, and_self, if_true]
    obtain ⟨rfl, rfl⟩ := hget
    have hline := world.programLine?_withFrames world'.memory.frames
    rw [← halike.eq_withFrames] at hline
    cases hread : world.programLine? with
    | none =>
        rw [hread] at hline
        rw [hline]
        exact hanswer
    | some line =>
        rw [hread] at hline
        rw [hline]
        have hframes := congrArg Memory.frames (World.memory_of_programLine? hread)
        exact lockstep_relay (halike.withFrames hframes)
  · simp only [hget, if_false]
    exact hanswer

theorem lockstep_planApply (halike : world.AlikeBut place x kept kept' world')
    (hsession : session.Closed) (hmemory : (Dialect.without x).memory world.memory)
    (callee : Value) (args : List Value) :
    (session.planApply world callee args).Lockstep (World.AlikeBut place x kept kept')
      (session.planApply world' callee args) := by
  cases callee with
  | function ref =>
      have hfunction : world'.memory.function? ref = world.memory.function? ref := by
        rw [Memory.function?, Memory.function?, halike.memory.functions]
      rw [Session.planApply, Session.planApply, hfunction]
      cases hcalled : world.memory.function? ref with
      | none => trivial
      | some function =>
          have hparams := Dialect.not_mem_of_without_function
            (hmemory function (Array.mem_of_getElem? hcalled))
          by_cases harity : function.params.length = args.length
          · simp only [harity, if_true]
            have hframe : (world'.memory.newFrame (some function.frame)).1 =
                (world.memory.newFrame (some function.frame)).1 :=
              congrArg FrameRef.mk halike.memory.size_eq
            rw [hframe]
            refine lockstep_binding (halike.newFrame _) (fun entry hentry => ?_)
              fun _ _ halike' => lockstep_unwrapReturn halike'
            rintro rfl
            exact hparams (List.of_mem_zip hentry).1
          · simp only [harity, if_false]
            exact ⟨rfl, halike⟩
  | builtin builtin => exact lockstep_planBuiltin halike hsession builtin args
  | _ => exact ⟨rfl, halike⟩

/-- The level of a task that does not mention the name, whatever the task is. -/
theorem lockstep_plan (halike : world.AlikeBut place x kept kept' world')
    (hsession : session.Closed) (htask : (Dialect.without x).task task)
    (hmemory : (Dialect.without x).memory world.memory) :
    (session.plan world task).Lockstep (World.AlikeBut place x kept kept')
      (session.plan world' task) := by
  cases task with
  | expr frame e => exact lockstep_planExpr halike frame htask
  | exprs frame es =>
      cases es with
      | nil => exact ⟨rfl, halike⟩
      | cons first rest =>
          exact lockstep_andThen halike fun _ _ _ halike' =>
            lockstep_withValues halike' fun _ _ _ halike'' => ⟨rfl, halike''⟩
  | loop frame condition body collected => exact lockstep_loop halike frame condition body collected
  | stmt frame s => exact lockstep_planStmt halike frame htask
  | block frame body value =>
      cases body with
      | nil => exact ⟨rfl, halike⟩
      | cons first rest =>
          exact lockstep_andThen halike fun _ _ _ halike' => lockstep_relay halike'
  | apply callee args => exact lockstep_planApply halike hsession hmemory callee args
  | program frame p => exact lockstep_unwrapReturn halike

end

/-! ## Runs -/

/-- Evaluation does the same in two worlds that differ in a binding which neither the code nor the
functions in memory nor the lines that `get` evaluates mention. -/
theorem Dialect.sameReply_without {x : String} {session : Session} {task : Task}
    {world world' : World}
    (hrequires : ((without x).speech .all).requires session task world)
    {place : FrameRef} {kept kept' : Option Value}
    (halike : world.AlikeBut place x kept kept' world') (fuel : Nat) :
    Option.Rel (SameReply (World.AlikeBut place x kept kept')) (task.run fuel session world)
      (task.run fuel session world') := by
  refine (kept_speech (without x) .all).sameReply (fun _ _ _ _ hrequires halike => ?_) fuel
    hrequires halike
  obtain ⟨hready, hcovers, -⟩ := hrequires
  exact lockstep_plan halike hready.closed hready.code (covers_all_iff.mp hcovers)

/-- Where `get` cannot be called, no line is evaluated. -/
theorem Contract.Kept.hears {contract : Contract} (hkept : contract.Kept)
    (hget : ∀ session world, ¬ contract.requires session (.apply (.builtin .get) []) world)
    {session : Session} {task : Task} {world : World}
    (hrequires : contract.requires session task world) (dialect : Dialect) :
    dialect.Hears (.call session task world .done) := by
  intro session' world' p started hbegins
  exfalso
  cases hbegins with
  | here => exact hget _ _ hrequires
  | inside hbegins => exact hget _ _ (hkept.requires_of_begins (hkept _ _ _ hrequires) hbegins)
  | after _ hbegins => cases hbegins

section

variable {x : String} {place : FrameRef} {session : Session} {task : Task} {world : World}

theorem World.alikeBut_bind (hplace : place.index < world.memory.frames.size) (value : Value) :
    world.AlikeBut place x (world.memory.own? place x) (some value)
      { world with memory := world.memory.bind place x value } where
  memory := {
    arrays := rfl
    functions := rfl
    outer := Memory.map_outer_bind place x value
    own := fun _ _ hne => Memory.own?_bind_of_ne value hne }
  console := rfl
  files := rfl
  own := rfl
  own' := by rw [Memory.own?_bind_self, if_pos hplace]

/-- A binding that nobody mentions is irrelevant. Let a name occur neither in the code nor in any
function of memory, and let a frame bind it to any other value, or bind it in addition. Then
evaluation with the standard functions has an answer in both worlds or in none, with the same
result, and afterwards the worlds differ in this one binding, which both have kept. -/
theorem unmentioned_binding_irrelevant (hsession : session.Closed)
    (hregistry : session.registry = .standard) (hclean : world.memory.Clean)
    (hvalues : ∀ value ∈ task.values, value.Clean) (htask : (Dialect.without x).task task)
    (hfunctions : (Dialect.without x).memory world.memory)
    (hplace : place.index < world.memory.frames.size) (value : Value) :
    let world' := { world with memory := world.memory.bind place x value }
    (∀ fuel, task.run fuel session world = none ↔ task.run fuel session world' = none) ∧
      ∀ fuel fuel' result result' after after',
        task.run fuel session world = some (result, after) →
        task.run fuel' session world' = some (result', after') →
          result' = result ∧
            after.AlikeBut place x (world.memory.own? place x) (some value) after' := by
  intro world'
  have hconfined : (confinement world.outside).requires session task world :=
    ⟨hsession, hregistry, rfl, hclean, hvalues⟩
  have hhears : (Dialect.without x).Hears (.call session task world .done) := by
    refine (kept_confinement _).hears (fun _ _ hrequires => ?_) hconfined _
    have hhost : (Value.builtin .get).Clean := hrequires.2.2.2.2 _ List.mem_cons_self
    exact absurd (by decide) hhost
  have hrel (fuel : Nat) : Option.Rel
      (SameReply (World.AlikeBut place x (world.memory.own? place x) (some value)))
      (task.run fuel session world) (task.run fuel session world') :=
    Dialect.sameReply_without (Dialect.requires_all hsession htask hfunctions hhears)
      (World.alikeBut_bind hplace value) fuel
  refine ⟨fun fuel => ?_, fun fuel fuel' result result' after after' hrun hrun' => ?_⟩
  · exact eq_none_iff_of_rel (hrel fuel)
  · have hrun := Task.run_mono (Nat.le_max_left fuel fuel') hrun
    have hrun' := Task.run_mono (Nat.le_max_right fuel fuel') hrun'
    have hmost := hrel (max fuel fuel')
    rw [hrun, hrun'] at hmost
    cases hmost with
    | some hsame => exact hsame

end

/-- A world in which a function is bound that doubles a number. -/
def World.doubling : World :=
  let double : Function := ⟨["n"], [.expr (.binary .add (.ident "n") (.ident "n"))], ⟨0⟩⟩
  { World.fresh with
    memory := (World.fresh.memory.newFunction double).2.bind ⟨0⟩ "double" (.function ⟨0⟩) }

/-- A call of the function gives the same whether `z` is bound or not. -/
theorem unmentioned_binding_irrelevant_doubling :
    let task : Task :=
      .program ⟨0⟩ [.bind "y" (.call (.ident "double") [.int 3]), .expr (.ident "y")]
    let world' : World := { World.doubling with
      memory := World.doubling.memory.bind ⟨0⟩ "z" (.function ⟨0⟩) }
    ∃ after after', task.run 20 .fresh .doubling = some (.one (.integer 6), after) ∧
      task.run 20 .fresh world' = some (.one (.integer 6), after') ∧
      after.AlikeBut ⟨0⟩ "z" none (some (.function ⟨0⟩)) after' := by
  intro task world'
  have hsession : Session.fresh.Closed := rfl
  have hempty : World.fresh.memory.Clean := Memory.Each.empty.newFrame none
  have hclean : World.doubling.memory.Clean := (hempty.newFunction _).bind _ _ trivial
  have hvalues : ∀ value ∈ task.values, value.Clean := nofun
  have htask : (Dialect.without "z").task task := Dialect.block_ofChecks (by decide +kernel)
  have hfunctions : (Dialect.without "z").memory World.doubling.memory := by
    intro function hfunction
    cases List.mem_singleton.mp (Array.mem_toList_iff.mpr hfunction)
    change Expr.checked _ _ _ = true
    decide +kernel
  have hplace : (⟨0⟩ : FrameRef).index < World.doubling.memory.frames.size := by decide
  obtain ⟨hnone, hsame⟩ := unmentioned_binding_irrelevant hsession rfl hclean hvalues htask
    hfunctions hplace (.function ⟨0⟩)
  have hvalue : ((Session.fresh.evalProgram 20 ⟨0⟩ [.bind "y" (.call (.ident "double") [.int 3]),
      .expr (.ident "y")]).run .doubling).map Prod.fst = some (.integer 6) := by
    decide +kernel
  obtain ⟨⟨_, after⟩, hrun, rfl⟩ := Option.map_eq_some_iff.mp hvalue
  have hrun : task.run 20 .fresh .doubling = some (.one (.integer 6), after) :=
    congrArg (Option.map (Prod.map Result.one id)) hrun
  obtain ⟨⟨result', after'⟩, hrun'⟩ : ∃ reply, task.run 20 .fresh world' = some reply := by
    refine Option.ne_none_iff_exists'.mp fun hnone' => ?_
    rw [(hnone 20).mpr hnone'] at hrun
    cases hrun
  obtain ⟨rfl, halike⟩ := hsame 20 20 _ _ _ _ hrun hrun'
  exact ⟨after, after', hrun, hrun', halike⟩

end Monkey
