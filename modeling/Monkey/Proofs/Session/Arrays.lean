import Monkey.Proofs.Evaluation.Arrays
import Monkey.Proofs.Session

/-! # The history of arrays

The steps that a session has taken so far determine what is in its arrays. Each array was created
once, by an array literal, a loop, `rest` or `push`, and its elements are those that it was created
with, followed by what successful calls of `add` have put into this very array since, in order. This
holds between sources and at every moment of a run, even of one that does not end.
-/

namespace Monkey

namespace Session

/-- A session has evaluated programs one after the other in its top frame, and has taken the given
steps for it. In between the console and the files may change, but not memory. -/
inductive Ran (session : Session) : List Step → World → Prop
  | new {registry console files world}
    (hnew : (Session.create registry).run (.initial console files) = some (session, world)) :
    Ran session [] world
  | program {steps world p more result world'} (hran : Ran session steps world)
    (htakes : (session.plan world (.program session.top p)).Takes more result world') :
    Ran session
      (steps ++ (more ++ [⟨session, .program session.top p, world, result, world', htakes.ends⟩]))
      world'
  | outside {steps world world'} (hran : Ran session steps world)
    (hmemory : world'.memory = world.memory) : Ran session steps world'

/-- A session is at a moment, between two programs or while it evaluates one, and has taken the
given steps so far. -/
inductive At (session : Session) : List Step → World → Prop
  | rest {steps world} (hran : Ran session steps world) : At session steps world
  | during {steps world p more world'} (hran : Ran session steps world)
    (hcomes : (session.plan world (.program session.top p)).Comes more world') :
    At session (steps ++ more) world'

end Session

section

variable {session : Session} {task : Task} {frame : Option FrameRef} {seen values : List Value}
  {world world' : World} {steps : List Step} {allowed : Builtin → Prop}

/-- A plan comes to every moment that it reaches, or has ended there. -/
theorem Plan.Reaches.comes_or_takes {plan : Plan} (hreaches : plan.Reaches world' values)
    (hlocal : plan.Local session task frame seen world) :
    (∃ steps, plan.Comes steps world') ∨ ∃ steps result, plan.Takes steps result world' := by
  induction hreaches generalizing session task frame seen world with
  | done => exact .inr ⟨[], _, .done⟩
  | pass => exact .inl ⟨[], .pass⟩
  | next _ ih =>
      obtain ⟨-, -, place, name, value, -, -, hnext⟩ := hlocal.of_pass
      rcases ih hnext with ⟨steps, hcomes⟩ | ⟨steps, result, htakes⟩
      · exact .inl ⟨steps, .next hcomes⟩
      · exact .inr ⟨steps, result, .pass htakes⟩
  | call => exact .inl ⟨[], .call⟩
  | @inside session' part start _ _ _ _ ih =>
      obtain ⟨place, entered, -, hlocalPart⟩ := session'.plan_local part start
      rcases ih hlocalPart with ⟨steps, hcomes⟩ | ⟨steps, result, htakes⟩
      · exact .inl ⟨steps, .inside hcomes⟩
      · cases hpart : part.isRounds with
        | false => exact .inl ⟨_, .ended htakes.ends hpart htakes⟩
        | true =>
            -- Where the remaining rounds end, the loop ends as well.
            obtain ⟨-, rfl⟩ | ⟨-, hrounds, -⟩ := hlocal.of_call.2
            · exact .inr ⟨_, result, .call htakes.ends htakes .done⟩
            · cases hrounds.symm.trans hpart
  | @after _ part _ _ result world' _ _ hends hreaches ih =>
      obtain ⟨inner, htakes⟩ := hends.exists_takes
      obtain ⟨-, rfl⟩ | ⟨-, -, hafter⟩ := hlocal.of_call.2
      · cases hreaches
        exact .inr ⟨_, result, .call hends htakes .done⟩
      · rcases ih (hafter result world' (Task.proper_of_ends hends)) with
          ⟨outer, hcomes⟩ | ⟨outer, result', houter⟩
        · exact .inl ⟨_, .after hends htakes hcomes⟩
        · exact .inr ⟨_, result', .call hends htakes houter⟩

theorem Session.effect_of_ends {builtin : Builtin} {args : List Value} {result : Result}
    (hsession : session.Closed) (hget : builtin ≠ .get)
    (hends : (session.planBuiltin world builtin args).Ends result world') :
    ∃ value, result = .one value ∧
      Builtin.Effect world.memory builtin args value world'.memory := by
  rw [Session.planBuiltin, if_neg fun h => hget h.1, hsession] at hends
  cases hrun : (Eval.settle (builtin.call (fun _ => failure)
      (fun name _ => throw (.unbound name)) args)).run world with
  | none =>
      rw [hrun] at hends
      cases hends
  | some reply =>
      rw [hrun] at hends
      cases hends
      exact ⟨reply.1, rfl, Builtin.effect_settle hrun⟩

/-- A call of a builtin function other than `get` is over at once. -/
theorem Step.effect (step : Step) (hsession : step.session.Closed) {builtin : Builtin}
    {args : List Value} (htask : step.task = .apply (.builtin builtin) args)
    (hget : builtin ≠ .get) :
    ∃ value, step.result = .one value ∧
      Builtin.Effect step.before.memory builtin args value step.after.memory := by
  have hends := step.ends
  rw [htask] at hends
  exact Session.effect_of_ends hsession hget hends

end

theorem Builtin.Effect.arrays_of_error {memory memory' : Memory} {builtin : Builtin}
    {args : List Value} {message : String}
    (heffect : Builtin.Effect memory builtin args (.error message) memory') :
    memory'.arrays = memory.arrays := by
  cases heffect with
  | plain => rfl
  | element => rfl

theorem Plan.Ends.exists_array {elements : Array Value} {result : Result} {world world' : World}
    (hends : (newArray elements world).Ends result world') :
    ∃ ref, result = .one (.array ref) ∧ world'.memory.elements ref = elements := by
  cases hends
  exact ⟨_, rfl, Memory.elements_newArray ..⟩

namespace Session

theorem plan_push (session : Session) (world : World) (source : ArrayRef) (value : Value) :
    session.plan world (.apply (.builtin .push) [.array source, value]) =
      .newArray ((world.memory.elements source).push value) world :=
  rfl

theorem plan_rest (session : Session) (world : World) (source : ArrayRef) :
    session.plan world (.apply (.builtin .rest) [.array source]) =
      if (world.memory.elements source).isEmpty then .done (.one .null) world
      else .newArray ((world.memory.elements source).extract 1
        (world.memory.elements source).size) world := by
  have hplan : session.plan world (.apply (.builtin .rest) [.array source]) =
      .ofAnswer ((Eval.settle (Builtin.callRest (.array source))).run world) := rfl
  have hcall : (Builtin.callRest (.array source)).run.run world =
      (if (world.memory.elements source).isEmpty then pure .null
        else Call.ofEval (Eval.newArray ((world.memory.elements source).extract 1
          (world.memory.elements source).size)) : Call Value).run.run world := rfl
  rw [hplan, run_settle, hcall]
  split
  · rfl
  · rfl

theorem plan_add (session : Session) (world : World) (ref : ArrayRef) (value : Value) :
    session.plan world (.apply (.builtin .add) [.array ref, value]) =
      .done (.one .null) { world with memory := world.memory.append ref value } :=
  rfl

end Session

/-- What a step does to arrays by itself. A call of `push` delivers an array, and so does `rest`
unless there is nothing to copy, and an array literal and a loop unless they are cut short. A call
of `add` succeeds, and a call that fails leaves all arrays alone. -/
structure Step.OnArrays (step : Step) : Prop where
  push : ∀ source value, step.task = .apply (.builtin .push) [.array source, value] →
    ∃ ref, step.result = .one (.array ref) ∧
      step.after.memory.elements ref = (step.before.memory.elements source).push value
  rest : ∀ source, step.task = .apply (.builtin .rest) [.array source] →
    if (step.before.memory.elements source).isEmpty then
      step.result = .one .null ∧ step.after.memory = step.before.memory
    else
      ∃ ref, step.result = .one (.array ref) ∧
        step.after.memory.elements ref = (step.before.memory.elements source).extract 1
          (step.before.memory.elements source).size
  add : ∀ ref value, step.task = .apply (.builtin .add) [.array ref, value] →
    step.result = .one .null ∧ step.after.memory = step.before.memory.append ref value
  literal : ∀ frame elements, step.task = .expr frame (.array elements) →
    ∃ value, step.result = .one value ∧ (value.isAbrupt = true ∨ ∃ ref, value = .array ref)
  loop : ∀ frame condition body, step.task = .expr frame (.loop condition body) →
    ∃ value, step.result = .one value ∧ (value.isAbrupt = true ∨ ∃ ref, value = .array ref)
  error : ∀ builtin args message, builtin ≠ .get → step.task = .apply (.builtin builtin) args →
    step.result = .one (.error message) → step.after.memory.arrays = step.before.memory.arrays

theorem Step.builds (step : Step) (htask : step.task.Composite)
    (hbuilds : step.task.builds = true) :
    ∃ value, step.result = .one value ∧ (value.isAbrupt = true ∨ ∃ ref, value = .array ref) := by
  obtain ⟨frame, entered, -, hlocal⟩ := step.session.plan_local step.task step.before
  exact step.ends.builds hlocal htask hbuilds

theorem Step.onArrays (step : Step) (hsession : step.session.Closed) : step.OnArrays where
  push source value htask := by
    have hends := step.ends
    rw [htask, Session.plan_push] at hends
    exact hends.exists_array
  rest source htask := by
    have hends := step.ends
    rw [htask, Session.plan_rest] at hends
    split
    next hempty =>
      rw [if_pos hempty] at hends
      obtain ⟨hresult, hafter⟩ := Plan.ends_done_iff.mp hends
      exact ⟨hresult, congrArg World.memory hafter⟩
    next hempty =>
      rw [if_neg hempty] at hends
      exact hends.exists_array
  add ref value htask := by
    have hends := step.ends
    rw [htask, Session.plan_add] at hends
    obtain ⟨hresult, hafter⟩ := Plan.ends_done_iff.mp hends
    exact ⟨hresult, congrArg World.memory hafter⟩
  literal frame elements htask := by
    refine step.builds ?_ ?_
    · rw [htask]
      exact Task.composite_expr
    · rw [htask]
      rfl
  loop frame condition body htask := by
    refine step.builds ?_ ?_
    · rw [htask]
      exact Task.composite_expr
    · rw [htask]
      rfl
  error builtin args message hget htask hresult := by
    obtain ⟨value, hvalue, heffect⟩ := step.effect hsession htask hget
    cases hresult.symm.trans hvalue
    exact heffect.arrays_of_error

namespace Session

variable {session : Session} {world world' : World} {steps : List Step}

theorem Ran.closed (hran : session.Ran steps world) : session.Closed := by
  induction hran with
  | new hnew =>
      cases hnew
      rfl
  | program _ _ ih => exact ih
  | outside _ _ ih => exact ih

theorem requires_program (hsession : session.Closed)
    (hmemory : world.memory.Known fun _ => True) (p : Program) :
    (knowledge fun _ => True).requires session (.program session.top p) world :=
  ⟨hsession, ⟨fun _ _ => trivial, fun _ _ => trivial⟩, hmemory, nofun⟩

theorem Ran.known (hran : session.Ran steps world) : world.memory.Known fun _ => True := by
  induction hran with
  | new hnew =>
      cases hnew
      exact Memory.Each.empty.newFrame none
  | @program _ _ p _ _ _ hran htakes ih =>
      have hrequires := requires_program hran.closed ih p
      exact ((kept_knowledge _).ensures_of_ends hrequires htakes.ends).2.2.1
  | outside _ hmemory ih =>
      rw [hmemory]
      exact ih

theorem Ran.requires (hran : session.Ran steps world) (p : Program) :
    (knowledge fun _ => True).requires session (.program session.top p) world :=
  requires_program hran.closed hran.known p

theorem Ran.replays (hran : session.Ran steps world) :
    Replays #[] (changesOf steps) world.memory.arrays := by
  induction hran with
  | new hnew =>
      cases hnew
      exact .nil
  | program hran htakes ih =>
      have hprogram := Task.replays_of_takes (hran.requires _) htakes
      rw [changesOf_append, changesOf_append, changesOf_cons]
      simpa [Step.changes, Task.isRounds, changesOf] using ih.append hprogram
  | outside _ hmemory ih =>
      rw [hmemory]
      exact ih

theorem At.replays (hat : session.At steps world) :
    Replays #[] (changesOf steps) world.memory.arrays := by
  cases hat with
  | rest hran => exact hran.replays
  | @during _ start p _ _ hran hcomes =>
      have hrequires := hran.requires p
      obtain ⟨frame, entered, henters, hlocal⟩ :=
        session.plan_local (.program session.top p) start
      have hprogram := hcomes.replays hlocal (kept_knowledge _ _ _ _ hrequires)
      rw [henters.arrays] at hprogram
      rw [changesOf_append]
      exact hran.replays.append hprogram

theorem Ran.closed_of_mem (hran : session.Ran steps world) :
    ∀ step ∈ steps, step.session.Closed := by
  induction hran with
  | new => exact nofun
  | @program _ _ p _ _ _ hran htakes ih =>
      have hmeets := kept_knowledge _ _ _ _ (hran.requires p)
      simp only [List.forall_mem_append, List.forall_mem_singleton]
      have hrequires := (kept_knowledge _).requires_of_takes hmeets htakes
      exact ⟨ih, fun step hstep => (hrequires step hstep).1, hran.closed⟩
  | outside _ _ ih => exact ih

theorem At.closed_of_mem (hat : session.At steps world) :
    ∀ step ∈ steps, step.session.Closed := by
  cases hat with
  | rest hran => exact hran.closed_of_mem
  | @during _ _ p _ _ hran hcomes =>
      have hmeets := kept_knowledge _ _ _ _ (hran.requires p)
      simp only [List.forall_mem_append]
      have hrequires := (kept_knowledge _).requires_of_comes hmeets hcomes
      exact ⟨hran.closed_of_mem, fun step hstep => (hrequires step hstep).1⟩

/-! ## Every moment of a session has its steps -/

theorem Ran.evalProgram {fuel : Nat} {p : Program} {value : Value} (hran : session.Ran steps world)
    (hrun : (session.evalProgram fuel session.top p).run world = some (value, world')) :
    ∃ more, session.Ran (steps ++ more) world' := by
  obtain ⟨more, htakes⟩ := Task.exists_takes_of_run (run_program hrun)
  exact ⟨_, .program hran htakes⟩

theorem Rests.exists_ran (hrests : session.Rests world) : ∃ steps, session.Ran steps world := by
  let inv (memory : Memory) : Prop := ∃ steps world, session.Ran steps world ∧ memory = world.memory
  have hprograms : session.KeptByPrograms inv := by
    rintro fuel p world value world' ⟨steps, start, hran, hmemory⟩ hrun
    obtain ⟨more, hran'⟩ := (hran.outside hmemory).evalProgram hrun
    exact ⟨_, world', hran', rfl⟩
  have hinv : inv world.memory :=
    hrests.keeps (fun _ _ _ world hnew => ⟨[], world, .new hnew, rfl⟩) hprograms.bySources
  obtain ⟨steps, start, hran, hmemory⟩ := hinv
  exact ⟨steps, .outside hran hmemory⟩

theorem Ran.exists_at_of_reaches {p : Program} {values : List Value}
    (hran : session.Ran steps world)
    (hreaches : (session.plan world (.program session.top p)).Reaches world' values) :
    ∃ steps, session.At steps world' := by
  obtain ⟨frame, entered, -, hlocal⟩ :=
    session.plan_local (.program session.top p) world
  rcases hreaches.comes_or_takes hlocal with
    ⟨more, hcomes⟩ | ⟨more, result, htakes⟩
  · exact ⟨_, .during hran hcomes⟩
  · exact ⟨_, .rest (.program hran htakes)⟩

theorem Passes.exists_at {values : List Value} (hpasses : session.Passes world values) :
    ∃ steps, session.At steps world := by
  cases hpasses with
  | rest hrests =>
      obtain ⟨steps, hran⟩ := hrests.exists_ran
      exact ⟨steps, .rest hran⟩
  | evalSource hrests _ hreaches =>
      obtain ⟨steps, hran⟩ := hrests.exists_ran
      exact hran.exists_at_of_reaches hreaches
  | @run world start _ showProgram source _ hrests _ hprint hreaches =>
      obtain ⟨steps, hran⟩ := hrests.exists_ran
      have hecho : Keeps (· = world.memory) ((Shell.mk session showProgram).echo source)
          fun _ => True := keeps_printing.echo _ source
      have hmemory : start.memory = world.memory := (hecho _ _ _ rfl hprint).1
      exact (hran.outside hmemory).exists_at_of_reaches hreaches

/-- At every moment, each array holds what it was created with and what has been added to it since.
No array is created twice, every step that should deliver an array does, and a call of a builtin
function that fails leaves all arrays alone. -/
theorem passes_array_history :
    (∀ world values, session.Passes world values → ∃ steps, session.At steps world) ∧
    ∀ steps world, session.At steps world →
      creations (changesOf steps) = (List.range world.memory.arrays.size).map ArrayRef.mk ∧
      (∀ earlier ref elements later, changesOf steps = earlier ++ .created ref elements :: later →
        additions ref earlier = [] ∧
          world.memory.arrays[ref.index]? = some (elements ++ (additions ref later).toArray)) ∧
      ∀ step ∈ steps, step.OnArrays := by
  refine ⟨fun _ _ => Passes.exists_at, fun steps world hat => ⟨?_, ?_, fun step hstep => ?_⟩⟩
  · exact hat.replays.creations_eq
  · exact fun _ _ _ _ => hat.replays.contents
  · exact step.onArrays (hat.closed_of_mem step hstep)

/-- An array that is added to itself and a copy that it does not show in. -/
theorem aliased_array_history :
    ∃ steps world, Session.fresh.At steps world ∧
      world.memory.arrays = #[#[.integer 1, .array ⟨0⟩], #[.integer 1, .integer 2]] ∧
      creations (changesOf steps) = [⟨0⟩, ⟨1⟩] ∧
      ∀ earlier elements later, changesOf steps = earlier ++ .created ⟨0⟩ elements :: later →
        elements ++ (additions ⟨0⟩ later).toArray = #[.integer 1, .array ⟨0⟩] := by
  have hnew : (Session.create .standard).run (.initial (.ofInput []) .empty) =
      some (.fresh, .fresh) := rfl
  have hrun : ((Session.fresh.evalSource 20 "let a = [1]; let b = push(a, 2); add(a, a);").run
      .fresh).map (·.2.memory.arrays) =
        some #[#[.integer 1, .array ⟨0⟩], #[.integer 1, .integer 2]] := by
    decide +kernel
  obtain ⟨reply, hreply, harrays⟩ := Option.map_eq_some_iff.mp hrun
  have hpasses : Session.fresh.Passes reply.2 [] := .rest (.evalSource (.new hnew) hreply)
  obtain ⟨hmoments, hhistory⟩ := @passes_array_history Session.fresh
  obtain ⟨steps, hat⟩ := hmoments _ _ hpasses
  obtain ⟨hcreations, hcontents, -⟩ := hhistory steps _ hat
  refine ⟨steps, reply.2, hat, harrays, ?_, fun earlier elements later hchanges => ?_⟩
  · rw [hcreations, harrays]
    rfl
  · have hfirst := (hcontents earlier ⟨0⟩ elements later hchanges).2
    rw [harrays] at hfirst
    exact (Option.some.inj hfirst).symm

end Session

end Monkey
