import Monkey.Proofs.Evaluation.WellFormed
import Monkey.Proofs.Shell

/-! # Sessions keep control flow out of data

A session starts with an empty frame and runs sources one after the other. Between the sources and
at every moment of a run, even of one that does not end, errors and pending returns stay where they
belong: no name is bound to one, no array holds a pending return, and a pending return never carries
an abrupt value. An error can outlive its evaluation only as an element of an array.
-/

namespace Monkey

/-- A value is somewhere in memory. -/
inductive Memory.Holds (memory : Memory) : Value → Prop
  | bound {place : Nat} {frame : Frame} {name value}
    (hframe : memory.frames[place]? = some frame)
    (hget : frame.bindings.get? name = some value) :
    Holds memory value
  | element {place : Nat} {elements : Array Value} {value}
    (harray : memory.arrays[place]? = some elements) (hvalue : value ∈ elements) :
    Holds memory value
  | carried {value} (hreturned : Holds memory (.returned value)) : Holds memory value

namespace Memory.WellFormed

variable {memory : Memory}

theorem kind_of_holds (hmemory : memory.WellFormed) {value : Value} (hvalue : memory.Holds value) :
    value.kind ≠ .returned := by
  induction hvalue with
  | bound hframe hget => exact Value.kind_ne_returned_of_isAbrupt (hmemory.bound hframe hget)
  | element harray hvalue => exact hmemory.element harray hvalue
  | carried _ ih => exact absurd rfl ih

theorem exists_array_of_holds_error (hmemory : memory.WellFormed) {message : String}
    (herror : memory.Holds (.error message)) :
    ∃ (place : Nat) (elements : Array Value),
      memory.arrays[place]? = some elements ∧ .error message ∈ elements := by
  cases herror with
  | bound hframe hget => cases hmemory.bound hframe hget
  | element harray hvalue => exact ⟨_, _, harray, hvalue⟩
  | carried hreturned => exact absurd rfl (hmemory.kind_of_holds hreturned)

end Memory.WellFormed

namespace Session

/-- The worlds in which a session waits for a source: it is new, or the sources so far have come to
an end. -/
inductive Rests (session : Session) : World → Prop
  | new {registry console files world}
    (hnew : (Session.create registry).run (.initial console files) = some (session, world)) :
    Rests session world
  | evalSource {world world' fuel text result} (hrests : Rests session world)
    (hrun : (session.evalSource fuel text).run world = some (result, world')) :
    Rests session world'
  | run {world world' showProgram fuel source result} (hrests : Rests session world)
    (hrun : ((Shell.mk session showProgram).run fuel source).run.run world =
      some (result, world')) :
    Rests session world'

/-- The moments that a session comes to, at rest or while it runs a source. The shell may print the
program first. -/
inductive Passes (session : Session) : World → List Value → Prop
  | rest {world} (hrests : Rests session world) : Passes session world []
  | evalSource {world world' text values} (hrests : Rests session world)
    (haccept : (parse text).diagnostics.isEmpty)
    (hreaches : (session.plan world (.program session.top (parse text).program)).Reaches world'
      values) :
    Passes session world' values
  | run {world start world'} {showProgram : Bool} {source values} (hrests : Rests session world)
    (haccept : (parse source).diagnostics.isEmpty)
    (hprint : (if showProgram then Printing.writeLine (parse source).program.render
      else pure () : Printing Unit).run.run world = some (.ok (), start))
    (hreaches : (session.plan start (.program session.top (parse source).program)).Reaches world'
      values) :
    Passes session world' values

variable {session : Session} {world world' : World}

theorem run_program {fuel : Nat} {frame : FrameRef} {p : Program} {value : Value}
    (hrun : (session.evalProgram fuel frame p).run world = some (value, world')) :
    Task.run fuel session world (.program frame p) = some (.one value, world') := by
  rw [Task.run, hrun]
  rfl

theorem map_one_eq_some {reply : Option (Value × World)} {value : Value} :
    reply.map (Prod.map Result.one id) = some (.one value, world) ↔
      reply = some (value, world) := by
  rcases reply with _ | ⟨value', world'⟩
  · simp
  · simp

theorem run_evalSource {source : String} (haccept : (parse source).diagnostics = []) (fuel : Nat) :
    (session.evalSource fuel source).run world =
      ((session.evalProgram fuel session.top (parse source).program).run world).map
        (Prod.map Except.ok id) := by
  unfold evalSource
  simp only [haccept, List.isEmpty_nil, if_true, StateT.run_bind]
  cases (session.evalProgram fuel session.top (parse source).program).run world with
  | none => rfl
  | some reply => rfl

theorem exists_run_evalProgram_iff {frame : FrameRef} {p : Program} {value : Value} :
    (∃ fuel, (session.evalProgram fuel frame p).run world = some (value, world')) ↔
      (session.plan world (.program frame p)).Ends (.one value) world' := by
  rw [← Task.exists_run_iff]
  exact exists_congr fun fuel => map_one_eq_some.symm

/-- With enough fuel the evaluator answers a program with what its plan ends with. -/
theorem exists_run_of_ends {frame : FrameRef} {p : Program} {value : Value}
    (hends : (session.plan world (.program frame p)).Ends (.one value) world') :
    ∃ enough, ∀ fuel, enough ≤ fuel →
      (session.evalProgram fuel frame p).run world = some (value, world') := by
  obtain ⟨enough, hrun⟩ := Task.exists_run_iff.mpr hends
  exact ⟨enough, fun fuel hle => map_one_eq_some.mp (Task.run_mono hle hrun)⟩

/-- A kept contract holds of the answers to programs. -/
theorem ensures_of_evalProgram {contract : Contract} (hkept : contract.Kept) {fuel : Nat}
    {frame : FrameRef} {p : Program} {value : Value}
    (hrequires : contract.requires session (.program frame p) world)
    (hrun : (session.evalProgram fuel frame p).run world = some (value, world')) :
    contract.ensures session (.program frame p) world (.one value) world' :=
  hkept.ensures_of_run hrequires (run_program hrun)

theorem evalProgram_ensures {fuel : Nat} {frame : FrameRef} {p : Program} {value : Value}
    (hsession : session.Closed) (hmemory : world.memory.WellFormed)
    (hrun : (session.evalProgram fuel frame p).run world = some (value, world')) :
    value.kind ≠ .returned ∧ world'.memory.WellFormed :=
  ensures_of_evalProgram kept_discipline ⟨hsession, trivial, hmemory⟩ hrun

theorem apply_ensures {fuel : Nat} {callee : Value} {args : List Value} {value : Value}
    (hsession : session.Closed) (hmemory : world.memory.WellFormed)
    (hargs : ∀ arg ∈ args, arg.isAbrupt = false)
    (hrun : (session.apply fuel callee args).run world = some (value, world')) :
    value.kind ≠ .returned ∧ world'.memory.WellFormed := by
  have htask : Task.run fuel session world (.apply callee args) = some (.one value, world') := by
    rw [Task.run, hrun]
    rfl
  have hrequires : discipline.requires session (.apply callee args) world :=
    ⟨hsession, hargs, hmemory⟩
  exact kept_discipline.ensures_of_run hrequires htask

theorem Rests.closed (hrests : session.Rests world) : session.Closed := by
  induction hrests with
  | new hnew =>
      cases hnew
      rfl
  | evalSource _ _ ih => exact ih
  | run _ _ ih => exact ih

theorem Passes.closed {values : List Value} (hpasses : session.Passes world values) :
    session.Closed := by
  cases hpasses with
  | rest hrests => exact hrests.closed
  | evalSource hrests => exact hrests.closed
  | run hrests => exact hrests.closed

/-! ## Invariants of sessions -/

section

variable {inv : Memory → Prop}

/-- The programs that a session evaluates keep the invariant. -/
def KeptByPrograms (session : Session) (inv : Memory → Prop) : Prop :=
  ∀ fuel p world value world', inv world.memory →
    (session.evalProgram fuel session.top p).run world = some (value, world') → inv world'.memory

/-- The sources that a session evaluates keep the invariant. -/
def KeptBySources (session : Session) (inv : Memory → Prop) : Prop :=
  ∀ fuel source world value world', inv world.memory →
    (session.evalProgram fuel session.top (parse source).program).run world =
      some (value, world') → inv world'.memory

theorem KeptByPrograms.bySources (hprograms : session.KeptByPrograms inv) :
    session.KeptBySources inv :=
  fun fuel source => hprograms fuel (parse source).program

theorem KeptBySources.evalSource {fuel : Nat} {text : String}
    {result : Except (List Diagnostic) Value} (hsources : session.KeptBySources inv)
    (hinv : inv world.memory)
    (hrun : (session.evalSource fuel text).run world = some (result, world')) :
    inv world'.memory := by
  unfold Session.evalSource at hrun
  by_cases haccept : (parse text).diagnostics.isEmpty
  · simp only [haccept, if_true] at hrun
    rw [StateT.run_bind] at hrun
    obtain ⟨⟨value, middle⟩, hvalue, hresult⟩ := Option.bind_eq_some_iff.mp hrun
    cases hresult
    exact hsources _ _ _ _ _ hinv hvalue
  · simp only [haccept, Bool.false_eq_true, if_false] at hrun
    cases hrun
    exact hinv

theorem KeptBySources.run {shell : Shell} (hsources : shell.session.KeptBySources inv) (fuel : Nat)
    (source : String) : Keeps inv (shell.run fuel source) fun _ => True := by
  refine keeps_printing.run (keeps_lift fun world value world' hinv hrun => ?_)
  exact ⟨hsources _ _ _ _ _ hinv hrun, trivial⟩

/-- What holds of a new session and is kept by sources holds whenever the session waits for a
source. -/
theorem Rests.keeps
    (hnew : ∀ registry console files world,
      (Session.create registry).run (.initial console files) = some (session, world) →
        inv world.memory)
    (hsources : session.KeptBySources inv) (hrests : session.Rests world) :
    inv world.memory := by
  induction hrests with
  | new hcreate => exact hnew _ _ _ _ hcreate
  | evalSource _ hrun ih => exact hsources.evalSource ih hrun
  | run _ hrun ih => exact (KeptBySources.run hsources _ _ _ _ _ ih hrun).1

/-- What holds of a session at rest and of all moments of the programs that it evaluates holds of
all moments that it comes to. -/
theorem Passes.moment_of_kept {contract : Contract} (hkept : contract.Kept)
    (hinv : ∀ world, session.Rests world → inv world.memory)
    (hmoment : ∀ world, inv world.memory → contract.moment world [])
    (hrequires : ∀ source world, inv world.memory →
      contract.requires session (.program session.top (parse source).program) world)
    {values : List Value} (hpasses : session.Passes world values) :
    contract.moment world values := by
  cases hpasses with
  | rest hrests => exact hmoment world (hinv world hrests)
  | evalSource hrests _ hreaches =>
      exact hkept.moment_of_reaches (hkept _ _ _ (hrequires _ _ (hinv _ hrests))) hreaches
  | @run _ start _ showProgram source _ hrests _ hprint hreaches =>
      -- Printing the program changes the console only.
      have hstart :=
        (keeps_printing.echo ⟨session, showProgram⟩ source _ _ start (hinv _ hrests) hprint).1
      exact hkept.moment_of_reaches (hkept _ _ _ (hrequires _ _ hstart)) hreaches

end

theorem Rests.wellFormed (hrests : session.Rests world) : world.memory.WellFormed := by
  refine hrests.keeps ?_ fun _ _ _ _ _ hmemory hrun =>
    (evalProgram_ensures hrests.closed hmemory hrun).2
  rintro _ _ _ _ ⟨⟩
  exact Memory.WellFormed.empty.newFrame none

theorem Passes.moment {values : List Value} (hpasses : session.Passes world values) :
    discipline.moment world values :=
  hpasses.moment_of_kept kept_discipline (fun _ hrests => hrests.wellFormed)
    (fun _ hmemory => ⟨hmemory, nofun⟩) fun _ _ hmemory => ⟨hpasses.closed, trivial, hmemory⟩

/-- Control flow stays out of data at every moment of every session. -/
theorem passes_control_flow_invariant {values : List Value}
    (hpasses : session.Passes world values) :
    world.memory.WellFormed ∧
    (∀ value, world.memory.Holds value ∨ value ∈ values → value.Unnested) ∧
    (∀ fuel frame p value world',
      (session.evalProgram fuel frame p).run world = some (value, world') →
        value.kind ≠ .returned) ∧
    (∀ fuel callee args value world', (∀ arg ∈ args, arg.isAbrupt = false) →
      (session.apply fuel callee args).run world = some (value, world') →
        value.kind ≠ .returned) ∧
    ∀ message, world.memory.Holds (.error message) →
      ∃ (place : Nat) (elements : Array Value),
        world.memory.arrays[place]? = some elements ∧ .error message ∈ elements := by
  obtain ⟨hmemory, hvalues⟩ := hpasses.moment
  refine ⟨hmemory, ?_, ?_, ?_, fun _ => hmemory.exists_array_of_holds_error⟩
  · rintro value (hheld | hvalue)
    · exact Value.unnested_of_kind (hmemory.kind_of_holds hheld)
    · exact hvalues value hvalue
  · intro fuel frame p value world' hrun
    exact (evalProgram_ensures hpasses.closed hmemory hrun).1
  · intro fuel callee args value world' hargs hrun
    exact (apply_ensures hpasses.closed hmemory hargs hrun).1

/-- The error of a failing loop outlives its source in an array. -/
theorem failing_loop_control_flow_invariant :
    ∃ world, Session.fresh.Passes world [] ∧
      world.memory.arrays = #[#[.error "identifier not found: x"]] ∧ world.memory.WellFormed := by
  have hnew : (Session.create .standard).run (.initial (.ofInput []) .empty) =
      some (.fresh, .fresh) := rfl
  have hrun : ((Session.fresh.evalSource 20 "while (true) \x7b x \x7d").run .fresh).map
      (·.2.memory.arrays) = some #[#[.error "identifier not found: x"]] := by
    decide +kernel
  obtain ⟨reply, hreply, harrays⟩ := Option.map_eq_some_iff.mp hrun
  have hpasses : Session.fresh.Passes reply.2 [] := .rest (.evalSource (.new hnew) hreply)
  exact ⟨reply.2, hpasses, harrays, (passes_control_flow_invariant hpasses).1⟩

end Session

end Monkey
