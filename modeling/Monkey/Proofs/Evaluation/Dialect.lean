import Monkey.Proofs.Evaluation.Levels
import Monkey.Proofs.Memory.Held

/-! # Evaluation stays in its dialect

The tasks of a run are parts of the code that it began with, of the functions that it could get
hold of and of the lines that `get` evaluates. If all these are in a dialect, so is every task of
the run, and every function that the run creates (`Dialect.kept_speech`).
-/

namespace Monkey.Dialect

/-- All functions in memory come from literals in the dialect. -/
def memory (dialect : Dialect) (memory : Memory) : Prop :=
  ∀ function ∈ memory.functions, dialect.expr (.function function.params function.body)

/-- All functions of the region come from literals in the dialect, and nothing in memory leads out
of the region. -/
structure Covers (dialect : Dialect) (region : Region) (memory : Memory) : Prop
    extends region.Encloses memory where
  spoken : ∀ {ref function}, region.function ref → memory.function? ref = some function →
    dialect.expr (.function function.params function.body)

/-- The lines that `get` evaluates while the plan runs are in the dialect. -/
def Hears (dialect : Dialect) (plan : Plan) : Prop :=
  ∀ session world p started, plan.Begins session (.apply (.builtin .get) []) world →
    world.programLine? = some (p, started) → dialect.block p

/-- The code of the task is in the dialect, and it works in the region. -/
structure Ready (dialect : Dialect) (region : Region) (session : Session) (task : Task) :
    Prop where
  closed : session.Closed
  code : dialect.task task
  top : region.frame session.top
  frame : ∀ place, task.frame? = some place → region.frame place
  values : ∀ value ∈ task.values, region.value value

/-- Evaluation of code in the dialect stays in it, and in the region that it works in, provided
that the lines which `get` evaluates are in the dialect. -/
def speech (dialect : Dialect) (region : Region) : Contract where
  requires session task world :=
    dialect.Ready region session task ∧ dialect.Covers region world.memory ∧
      dialect.Hears (.call session task world .done)
  ensures session task world result world' :=
    (session.plan world task).Ends result world' ∧ dialect.Covers region world'.memory ∧
      ∀ value ∈ result.values, region.value value
  moment world _ := dialect.Covers region world.memory

variable {dialect : Dialect} {region : Region} {session session' : Session} {task part : Task}
  {frame : Option FrameRef} {seen args : List Value} {memory memory' : Memory}
  {world world' : World} {result : Result} {value : Value}

/-! ## All of memory and what a frame holds -/

theorem covers_all_iff : dialect.Covers .all memory ↔ dialect.memory memory := by
  constructor
  · intro hcovers function hfunction
    obtain ⟨k, hk⟩ := Array.mem_iff_getElem?.mp hfunction
    have href : memory.function? ⟨k⟩ = some function := hk
    exact hcovers.spoken trivial href
  · exact fun hmemory => ⟨Region.encloses_all memory, fun _ hfunction =>
      hmemory _ (Array.mem_of_getElem? hfunction)⟩

theorem requires_all (hsession : session.Closed) (htask : dialect.task task)
    (hmemory : dialect.memory world.memory)
    (hhears : dialect.Hears (.call session task world .done)) :
    (dialect.speech .all).requires session task world :=
  ⟨⟨hsession, htask, trivial, fun _ _ => trivial, fun value _ => Region.value_all value⟩,
    covers_all_iff.mpr hmemory, hhears⟩

theorem covers_held {root : FrameRef}
    (hheld : ∀ ref function, memory.Held root (.value (.function ref)) →
      memory.function? ref = some function →
        dialect.expr (.function function.params function.body)) :
    dialect.Covers (.held memory root) memory where
  toEncloses := Region.encloses_held memory root
  spoken href hfunction := by
    rcases href with hmem | hle
    · exact hheld _ _ hmem hfunction
    · rw [Memory.function?, Array.getElem?_eq_none hle] at hfunction
      cases hfunction

theorem ready_held (hsession : session.Closed) {p : Program} (hp : dialect.block p) :
    dialect.Ready (.held memory session.top) session (.program session.top p) where
  closed := hsession
  code := hp
  top := .inl .root
  frame place hplace := by
    cases hplace
    exact .inl .root
  values := nofun

/-! ## Levels -/

namespace Covers

theorem newFrame (hmemory : dialect.Covers region memory) {outer : Option FrameRef}
    (houter : ∀ next, outer = some next → region.frame next) :
    dialect.Covers region (memory.newFrame outer).2 :=
  ⟨hmemory.toEncloses.newFrame houter, hmemory.spoken⟩

theorem bind (hmemory : dialect.Covers region memory) (place : FrameRef) (name : String)
    (hvalue : region.value value) : dialect.Covers region (memory.bind place name value) :=
  ⟨hmemory.toEncloses.bind place name hvalue, hmemory.spoken⟩

/-- A new array belongs to the region. -/
theorem newArray (hmemory : dialect.Covers region memory) {elements : Array Value}
    (helements : ∀ value ∈ elements, region.value value) :
    dialect.Covers region (memory.newArray elements).2 ∧
      region.array (memory.newArray elements).1 :=
  ⟨⟨hmemory.toEncloses.newArray helements, hmemory.spoken⟩, hmemory.array_of_le (Nat.le_refl _)⟩

theorem newFunction (hmemory : dialect.Covers region memory) {function : Function}
    (hframe : region.frame function.frame)
    (hfunction : dialect.expr (.function function.params function.body)) :
    dialect.Covers region (memory.newFunction function).2 ∧
      region.function (memory.newFunction function).1 where
  left.toEncloses := hmemory.toEncloses.newFunction hframe
  left.spoken href hget := by
    rw [Memory.function?, Memory.newFunction, Array.getElem?_push] at hget
    split at hget
    · cases hget
      exact hfunction
    · exact hmemory.spoken href hget
  right := hmemory.function_of_le (Nat.le_refl _)

theorem effect {builtin : Builtin} (hmemory : dialect.Covers region memory)
    (heffect : Builtin.Effect memory builtin args value memory')
    (hargs : ∀ arg ∈ args, region.value arg) :
    dialect.Covers region memory' ∧ region.value value := by
  cases heffect with
  | plain hvalue => exact ⟨hmemory, Region.value_of_isPlain hvalue⟩
  | @element _ ref _ _ hvalue =>
      have href : region.array ref := hargs (.array ref) (by simp)
      exact ⟨hmemory, hmemory.element href hvalue⟩
  | @rest source =>
      have hsource : region.array source := hargs (.array source) (by simp)
      refine hmemory.newArray fun element helement => ?_
      obtain ⟨k, hk, rfl⟩ := Array.mem_extract_iff_getElem.mp helement
      exact hmemory.element hsource (Array.getElem_mem _)
  | @push source added =>
      have hsource : region.array source := hargs (.array source) (by simp)
      refine hmemory.newArray fun element helement => ?_
      rcases Array.mem_push.mp helement with hmem | rfl
      · exact hmemory.element hsource hmem
      · exact hargs element (by simp)
  | @add ref added =>
      have hadded : region.value added := hargs added (by simp)
      exact ⟨⟨hmemory.toEncloses.append ref hadded, hmemory.spoken⟩, trivial⟩

end Covers

theorem value_of_from (hfrom : value.From session frame memory seen)
    (hmemory : region.Encloses memory) (hframe : ∀ place, frame = some place → region.frame place)
    (hseen : ∀ value ∈ seen, region.value value) : region.value value := by
  cases hfrom with
  | seen hvalue => exact hseen value hvalue
  | plain hvalue => exact Region.value_of_isPlain hvalue
  | builtin => trivial
  | bound hplace hlookup => exact hmemory.lookupWithin (hframe _ hplace) hlookup
  | @element ref _ harray hvalue =>
      have href : region.array ref := hseen _ harray
      exact hmemory.element href hvalue
  | @carried value hreturned =>
      have hvalue : region.value (.returned value) := hseen _ hreturned
      exact hvalue

namespace Ready

theorem level (hready : dialect.Ready region session task)
    (hmemory : dialect.Covers region memory) : dialect.level memory task := by
  cases task with
  | apply callee args =>
      cases callee with
      | function ref =>
          have href : region.function ref := hready.values (.function ref) List.mem_cons_self
          exact fun function hfunction => hmemory.spoken href hfunction
      | _ => trivial
  | _ => exact hready.code

theorem does (hready : dialect.Ready region session task)
    (hdoes : task.Does session frame world seen result world')
    (hmemory : dialect.Covers region world.memory)
    (hframe : ∀ place, frame = some place → region.frame place)
    (hseen : ∀ value ∈ seen, region.value value) :
    dialect.Covers region world'.memory ∧ ∀ value ∈ result.values, region.value value := by
  cases hdoes with
  | deliver _ hvalue =>
      refine ⟨hmemory, ?_⟩
      simpa [Result.values] using value_of_from hvalue hmemory.toEncloses hframe hseen
  | many hvalues => exact ⟨hmemory, fun value hvalue => hseen value (hvalues value hvalue)⟩
  | @ret _ _ value hvalue =>
      refine ⟨hmemory, ?_⟩
      simpa [Result.values, Region.value] using hseen value hvalue
  | array _ _ hvalues =>
      simpa [Result.values, Region.value] using
        hmemory.newArray fun value hvalue => hseen value (hvalues value hvalue)
  | @function place params body =>
      have hnew : dialect.Covers region (world.memory.newFunction ⟨params, body, place⟩).2 ∧ _ :=
        hmemory.newFunction (hready.frame place rfl) hready.code
      simpa [Result.values, Region.value] using hnew
  | bind hvalue =>
      simpa [Result.values, Region.value] using hmemory.bind _ _ (hseen _ hvalue)
  | builtin hrun =>
      simpa [Result.values] using hmemory.effect (hready.closed.effect hrun)
        fun arg harg => hready.values arg (List.mem_cons_of_mem _ harg)

theorem of_part (hready : dialect.Ready region session task)
    (hpart : task.Part frame world seen part) (hmemory : dialect.Covers region world.memory)
    (hframe : ∀ place, frame = some place → region.frame place)
    (hseen : ∀ value ∈ seen, region.value value) : dialect.Ready region session part where
  closed := hready.closed
  code := hpart.code dialect (hready.level hmemory)
  top := hready.top
  frame place hplace := by
    rcases hpart.frame with hnone | hsame
    · cases hnone.symm.trans hplace
    · exact hframe place (hsame.symm.trans hplace)
  values value hvalue := by
    rcases hpart.values value hvalue with hmem | rfl
    · exact hseen value hmem
    · trivial

theorem of_line (hready : dialect.Ready region session task) {p : Program} (hp : dialect.block p) :
    dialect.Ready region session.standard (.program session.top p) where
  closed := hready.closed.standard
  code := hp
  top := hready.top
  frame place hplace := by
    cases hplace
    exact hready.top
  values := nofun

theorem of_hands (hready : dialect.Ready region session task)
    (hhands : task.Hands session frame world seen session' part world')
    (hmemory : dialect.Covers region world.memory)
    (hframe : ∀ place, frame = some place → region.frame place)
    (hseen : ∀ value ∈ seen, region.value value)
    (hline : ∀ p started, task = .apply (.builtin .get) [] →
      world.programLine? = some (p, started) → dialect.block p) :
    dialect.Ready region session' part ∧ dialect.Covers region world'.memory := by
  have hmemory' : dialect.Covers region world'.memory := hhands.memory_eq ▸ hmemory
  cases hhands with
  | part hpart => exact ⟨hready.of_part hpart hmemory hframe hseen, hmemory'⟩
  | line hget hread => exact ⟨hready.of_line (hline _ _ hget hread), hmemory'⟩

/-- A called function gets a frame that did not exist before. -/
theorem enters (hready : dialect.Ready region session task)
    (henters : task.Enters world frame world') (hmemory : dialect.Covers region world.memory) :
    dialect.Covers region world'.memory ∧
      ∀ place, frame = some place → region.frame place := by
  cases henters with
  | stay => exact ⟨hmemory, hready.frame⟩
  | @call ref function args hfunction =>
      have href : region.function ref := hready.values (.function ref) List.mem_cons_self
      refine ⟨hmemory.newFrame ?_, ?_⟩
      · rintro next ⟨⟩
        exact hmemory.captured href hfunction
      · rintro place ⟨⟩
        exact hmemory.frame_of_le (Nat.le_refl _)

end Ready

/-! ## Runs -/

theorem Hears.call {next : Result → World → Plan}
    (hhears : dialect.Hears (.call session task world next)) :
    dialect.Hears (.call session task world .done) := by
  intro session' world' p started hbegins
  cases hbegins with
  | here => exact hhears _ _ p started .here
  | inside hbegins => exact hhears _ _ p started (.inside hbegins)
  | after _ hbegins => cases hbegins

/-- A program itself reads no line. -/
theorem Hears.program {frame : FrameRef} {p : Program}
    (hhears : dialect.Hears (session.plan world (.program frame p))) :
    dialect.Hears (.call session (.program frame p) world .done) := by
  intro session' world' line started hbegins
  cases hbegins with
  | inside hbegins => exact hhears _ _ line started hbegins
  | after _ hbegins => cases hbegins

/-- That the plan ends as it does is part of the goal: what comes after a task is heard only if the
task has come to its end. -/
theorem meets_of_local {plan : Plan} (hlocal : plan.Local session task frame seen world)
    (hready : dialect.Ready region session task) (hmemory : dialect.Covers region world.memory)
    (hframe : ∀ place, frame = some place → region.frame place)
    (hseen : ∀ value ∈ seen, region.value value) (hhears : dialect.Hears plan)
    (hline : ∀ p started, task = .apply (.builtin .get) [] →
      world.programLine? = some (p, started) → dialect.block p) :
    plan.Meets (dialect.speech region) fun result world' =>
      plan.Ends result world' ∧ dialect.Covers region world'.memory ∧
        ∀ value ∈ result.values, region.value value := by
  induction plan generalizing seen world with
  | done result world' =>
      have hdoes := hready.does hlocal.does hmemory hframe hseen
      exact ⟨hdoes.1, .done, hdoes⟩
  | stuck => trivial
  | pass world' next ih =>
      obtain ⟨htask, rfl, place, name, value, -, hvalue, hnext⟩ := hlocal.of_pass
      have hrest := ih hnext (hmemory.bind place name (hseen value hvalue)) hseen
        (fun _ _ _ _ hbegins => hhears _ _ _ _ (.next hbegins))
        fun _ _ hget => absurd hget (htask .get [])
      exact ⟨hmemory, hrest.mono fun _ _ h => ⟨.pass h.1, h.2⟩⟩
  | call session' part world' next ih =>
      obtain ⟨hhands, hcase⟩ := hlocal.of_call
      obtain ⟨hready', hmemory'⟩ := hready.of_hands hhands hmemory hframe hseen hline
      refine ⟨hmemory', ⟨hready', hmemory', hhears.call⟩, ?_⟩
      rintro result after ⟨hends, hafter, hvalues⟩
      rcases hcase with ⟨-, rfl⟩ | ⟨htask, -, hnext⟩
      · exact ⟨hafter, .call hends .done, hafter, hvalues⟩
      · have hrest := ih result after (hnext result after (Task.proper_of_ends hends)) hafter
          (List.forall_mem_append.mpr ⟨hvalues, hseen⟩)
          (fun _ _ _ _ hbegins => hhears _ _ _ _ (.after hends hbegins))
          fun _ _ hget => absurd hget (htask .get [])
        exact hrest.mono fun _ _ h => ⟨.call hends h.1, h.2⟩

/-- The line that `get` evaluates is heard where `get` is called. -/
theorem kept_speech (dialect : Dialect) (region : Region) : (dialect.speech region).Kept := by
  rintro session task world ⟨hready, hmemory, hhears⟩
  obtain ⟨frame, entered, henters, hlocal⟩ := session.plan_local task world
  obtain ⟨hmemory', hframe⟩ := hready.enters henters hmemory
  refine meets_of_local hlocal hready hmemory' hframe (fun value hvalue => ?_)
    (fun _ _ _ _ hbegins => hhears _ _ _ _ (.inside hbegins)) ?_
  · exact hready.values value (task.given_subset_values value hvalue)
  · rintro p started rfl hread
    cases henters
    exact hhears _ _ p started .here hread

end Monkey.Dialect
