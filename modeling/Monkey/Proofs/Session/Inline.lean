import Monkey.Proofs.Inline.Agreement
import Monkey.Proofs.Session.Sources

/-! # Arrays are values

In a session with the standard functions, arrays have an identity only through `add`. As long as
`add` is not called, the session does what it would do if arrays were immutable lists in place:
sources come to an end together, with the same outcomes, and on the way both evaluators take the
same steps with the same names bound to the same values (`arrays_are_values`).
-/

namespace Monkey

/-! ## The evaluator with arrays inline -/

namespace Inline

/-- With arrays inline, programs are evaluated in a top frame too. -/
def evaluator (top : FrameRef) : Evaluator Scopes Step Inline where
  ends scopes p steps value scopes' :=
    ∃ inner, (plan scopes (.program top p)).Takes inner (.one value) scopes' ∧
      steps = inner ++ [⟨.program top p, scopes, .one value, scopes'⟩]
  comes scopes p steps scopes' := (plan scopes (.program top p)).Comes steps scopes'

variable {top : FrameRef} {text : String} {scopes scopes' : Scopes}

theorem run_evalSource_eq_some_iff (haccept : (parse text).diagnostics = []) {fuel : Nat}
    {verdict : Verdict Inline} :
    (evalSource fuel top text).run scopes = some (verdict, scopes') ↔
      ∃ value, verdict = .ok value ∧
        eval fuel (.program top (parse text).program) scopes = some (.one value, scopes') := by
  change evalSource fuel top text scopes = _ ↔ _
  simp only [evalSource, haccept, List.isEmpty_nil, if_true]
  rcases eval fuel (.program top (parse text).program) scopes with _ | ⟨value | values, scopes''⟩
  · simp
  · simp [eq_comm]
  · simp

theorem run_evalSource_of_rejected (hreject : (parse text).diagnostics ≠ []) (fuel : Nat) :
    (evalSource fuel top text).run scopes = some (.error (parse text).diagnostics, scopes) := by
  have hempty : (parse text).diagnostics.isEmpty = false := List.isEmpty_eq_false_iff.mpr hreject
  change evalSource fuel top text scopes = _
  simp only [evalSource, hempty, Bool.false_eq_true, if_false]

theorem keptByFuel_evalSource (top : FrameRef) : KeptByFuel fun fuel => evalSource fuel top := by
  intro fuel fuel' text scopes reply hle hrun
  by_cases haccept : (parse text).diagnostics = []
  · obtain ⟨value, hvalue, heval⟩ := (run_evalSource_eq_some_iff haccept).mp hrun
    exact (run_evalSource_eq_some_iff haccept).mpr ⟨value, hvalue, eval_mono hle heval⟩
  · rw [run_evalSource_of_rejected haccept] at hrun ⊢
    exact hrun

theorem exists_run_evalSource_iff (haccept : (parse text).diagnostics = [])
    {verdict : Verdict Inline} :
    (∃ fuel, (evalSource fuel top text).run scopes = some (verdict, scopes')) ↔
      ∃ steps value, verdict = .ok value ∧
        (evaluator top).ends scopes (parse text).program steps value scopes' := by
  simp only [run_evalSource_eq_some_iff haccept]
  constructor
  · rintro ⟨fuel, value, rfl, heval⟩
    obtain ⟨inner, htakes⟩ := exists_eval_iff.mp ⟨fuel, heval⟩
    exact ⟨_, value, rfl, inner, htakes, rfl⟩
  · rintro ⟨_, value, rfl, inner, htakes, -⟩
    obtain ⟨fuel, heval⟩ := exists_eval_iff.mpr ⟨inner, htakes⟩
    exact ⟨fuel, value, rfl, heval⟩

theorem answers_evalSource (top : FrameRef) :
    (evaluator top).Answers fun fuel => evalSource fuel top where
  kept := keptByFuel_evalSource top
  rejected hreject fuel _ := run_evalSource_of_rejected hreject fuel
  accepted haccept _ _ _ := exists_run_evalSource_iff haccept

end Inline

/-! ## What can be written inline -/

/-- Nothing tells the value from the inline value: they unfold alike, and have the same text, the
same type and, if they are errors, the same message. -/
structure Memory.Represents (memory : Memory) (value : Value) (inlined : Inline) : Prop where
  unfold : memory.unfold value = inlined.unfolded
  text : memory.text? value = some inlined.text
  kind : value.kind.name = inlined.kind.name
  error : ∀ message, value = .error message ↔ inlined = .error message

/-- All values of memory and the given ones can be written inline. -/
def Memory.Faithful (memory : Memory) (values : List Value) : Prop :=
  ∀ value, memory.Holds value ∨ value ∈ values →
    memory.Represents value (memory.inline value)

/-- The values before and after the step can be written inline. -/
structure Step.Faithful (step : Step) : Prop where
  before : step.before.memory.Faithful step.task.values
  after : step.after.memory.Faithful step.result.values

section

variable {memory : Memory} {value : Value}

namespace Memory.Layered

theorem represents (hlayered : memory.Layered) (hvalue : value.In memory) :
    memory.Represents value (memory.inline value) where
  unfold := hlayered.unfold_eq hvalue
  text := hlayered.text?_eq hvalue
  kind := by rw [kind_inline]
  error _ := (inline_eq_error_iff memory value).symm

theorem in_of_holds (hlayered : memory.Layered) (hholds : memory.Holds value) :
    value.In memory := by
  induction hholds with
  | bound hframe hget => exact hlayered.bound.bound hframe hget
  | @element place elements value harray hvalue =>
      have hmem : value ∈ memory.elements ⟨place⟩ := by
        rw [Memory.elements, harray]
        exact hvalue
      exact hlayered.in_of_mem_elements hmem
  | carried _ ih => exact ih

theorem faithful (hlayered : memory.Layered) {values : List Value}
    (hvalues : ∀ value ∈ values, value.In memory) : memory.Faithful values := by
  rintro value (hholds | hmem)
  · exact hlayered.represents (hlayered.in_of_holds hholds)
  · exact hlayered.represents (hvalues value hmem)

end Memory.Layered

theorem Step.Layered.faithful {step : Step} (hstep : step.Layered) : step.Faithful :=
  ⟨hstep.before.faithful hstep.task, hstep.after.faithful hstep.result⟩

end

/-! ## Agreement -/

section

variable {session : Session} {world world' : World} {sources : List String} {steps : List Step}
  {outcomes : List (Verdict Value)} {p : Program} {value : Value}

theorem mirrors_program (hregistry : session.registry = .standard)
    (hlayered : world.memory.Layered) (p : Program) :
    (session.plan world (.program session.top p)).Mirrors world.memory
      (Inline.plan world.memory.scopes (.program session.top p)) :=
  Session.plan_mirrors hregistry hlayered nofun nofun

namespace Session

/-- A program that calls no `add` ends with arrays inline as it ends in memory. -/
theorem ends_inline (hregistry : session.registry = .standard) (hlayered : world.memory.Layered)
    (hends : session.evaluator.ends world p steps value world') (hfree : AddFree steps) :
    (Inline.evaluator session.top).ends world.memory.scopes p (steps.map Step.inline)
        (world'.memory.inline value) world'.memory.scopes ∧
      world.memory.Evolves world'.memory ∧ value.In world'.memory ∧
      ∀ step ∈ steps, step.Layered := by
  obtain ⟨inner, htakes, rfl⟩ := hends
  obtain ⟨htakes', hevolves, hresult, hsteps⟩ :=
    (mirrors_program hregistry hlayered p).takes htakes (addFree_append.mp hfree).1
  refine ⟨⟨_, htakes', List.map_append⟩, hevolves, hresult value List.mem_cons_self, ?_⟩
  simp only [List.forall_mem_append, List.forall_mem_singleton]
  exact ⟨hsteps, hlayered, Task.in_of_values rfl, hevolves.layered, hresult⟩

theorem exists_ends (hregistry : session.registry = .standard) (hlayered : world.memory.Layered)
    {steps' : List Inline.Step} {inlined : Inline} {scopes' : Inline.Scopes}
    (hends : (Inline.evaluator session.top).ends world.memory.scopes p steps' inlined scopes') :
    ∃ steps value world', session.evaluator.ends world p steps value world' ∧ AddFree steps ∧
      steps' = steps.map Step.inline ∧ inlined = world'.memory.inline value ∧
      scopes' = world'.memory.scopes := by
  obtain ⟨inner', htakes', rfl⟩ := hends
  obtain ⟨inner, result, world', htakes, hfree, rfl, hresult, rfl, -, -⟩ :=
    (mirrors_program hregistry hlayered p).exists_takes htakes'
  cases result with
  | many => cases hresult
  | one value =>
      cases hresult
      refine ⟨_, value, world', ⟨inner, htakes, rfl⟩, ?_, ?_, rfl, rfl⟩
      · exact addFree_append.mpr ⟨hfree, by simp [AddFree]⟩
      · rw [List.map_append]
        rfl

/-- Sources that call no `add` are evaluated with arrays inline as they are in memory. -/
theorem feeds_inline (hregistry : session.registry = .standard) (hlayered : world.memory.Layered)
    (hfeeds : session.evaluator.Feeds world sources steps outcomes world')
    (hfree : AddFree steps) :
    (Inline.evaluator session.top).Feeds world.memory.scopes sources (steps.map Step.inline)
        (outcomes.map (.map world'.memory.inline)) world'.memory.scopes ∧
      world.memory.Evolves world'.memory ∧
      (∀ value, .ok value ∈ outcomes → value.In world'.memory) ∧ ∀ step ∈ steps, step.Layered := by
  induction hfeeds with
  | nil => exact ⟨.nil, hlayered.refl, nofun, nofun⟩
  | rejected hreject _ ih =>
      obtain ⟨hfeeds, hevolves, hvalues, hsteps⟩ := ih hlayered hfree
      refine ⟨.rejected hreject hfeeds, hevolves, ?_, hsteps⟩
      simpa using hvalues
  | accepted haccept hends _ ih =>
      obtain ⟨hinner, houter⟩ := addFree_append.mp hfree
      obtain ⟨hends', hevolves, hvalue, hsteps⟩ := ends_inline hregistry hlayered hends hinner
      obtain ⟨hfeeds, hevolves', hvalues, hsteps'⟩ := ih hevolves.layered houter
      refine ⟨?_, hevolves.trans hevolves', ?_, ?_⟩
      · -- Later sources leave the arrays of the value as they are.
        rw [List.map_append, List.map_cons, Except.map,
          hevolves'.grows.inline_eq hevolves.layered hvalue]
        exact .accepted haccept hends' hfeeds
      · intro other hother
        rcases List.mem_cons.mp hother with heq | hmem
        · cases heq
          exact hevolves'.grows.within hvalue
        · exact hvalues other hmem
      · exact List.forall_mem_append.mpr ⟨hsteps, hsteps'⟩

theorem exists_feeds (hregistry : session.registry = .standard) {steps' : List Inline.Step}
    {outcomes' : List (Verdict Inline)} {scopes scopes' : Inline.Scopes}
    (hfeeds : (Inline.evaluator session.top).Feeds scopes sources steps' outcomes' scopes')
    (hlayered : world.memory.Layered) (hscopes : scopes = world.memory.scopes) :
    ∃ steps outcomes world', session.evaluator.Feeds world sources steps outcomes world' ∧
      AddFree steps ∧ steps' = steps.map Step.inline ∧
      outcomes' = outcomes.map (.map world'.memory.inline) ∧ scopes' = world'.memory.scopes := by
  induction hfeeds generalizing world with
  | nil => exact ⟨[], [], world, .nil, nofun, rfl, rfl, hscopes⟩
  | rejected hreject _ ih =>
      obtain ⟨steps, outcomes, world', hfeeds, hfree, rfl, rfl, rfl⟩ := ih hlayered hscopes
      exact ⟨steps, _, world', .rejected hreject hfeeds, hfree, rfl, rfl, rfl⟩
  | accepted haccept hends' _ ih =>
      subst hscopes
      obtain ⟨inner, value, middle, hends, hfree, rfl, rfl, rfl⟩ :=
        exists_ends hregistry hlayered hends'
      obtain ⟨-, hevolves, hvalue, -⟩ := ends_inline hregistry hlayered hends hfree
      obtain ⟨outer, outcomes, world', hfeeds, hfree', rfl, rfl, rfl⟩ := ih hevolves.layered rfl
      obtain ⟨-, hevolves', -⟩ := feeds_inline hregistry hevolves.layered hfeeds hfree'
      refine ⟨_, _, world', .accepted haccept hends hfeeds, addFree_append.mpr ⟨hfree, hfree'⟩,
        List.map_append.symm, ?_, rfl⟩
      rw [List.map_cons, Except.map, hevolves'.grows.inline_eq hevolves.layered hvalue]

theorem visits_inline (hregistry : session.registry = .standard) (hlayered : world.memory.Layered)
    (hvisits : session.evaluator.Visits world sources steps world') (hfree : AddFree steps) :
    (Inline.evaluator session.top).Visits world.memory.scopes sources (steps.map Step.inline)
        world'.memory.scopes ∧
      world'.memory.Layered ∧ ∀ step ∈ steps, step.Layered := by
  induction hvisits with
  | start => exact ⟨.start, hlayered, nofun⟩
  | rejected hreject _ ih =>
      obtain ⟨hvisits, hmoment⟩ := ih hlayered hfree
      exact ⟨.rejected hreject hvisits, hmoment⟩
  | inside haccept hcomes =>
      obtain ⟨hcomes', hmoment⟩ := (mirrors_program hregistry hlayered _).comes hcomes hfree
      exact ⟨.inside haccept hcomes', hmoment⟩
  | accepted haccept hends _ ih =>
      obtain ⟨hinner, houter⟩ := addFree_append.mp hfree
      obtain ⟨hends', hevolves, -, hsteps⟩ := ends_inline hregistry hlayered hends hinner
      obtain ⟨hvisits, hlayered', hsteps'⟩ := ih hevolves.layered houter
      rw [List.map_append]
      exact ⟨.accepted haccept hends' hvisits, hlayered',
        List.forall_mem_append.mpr ⟨hsteps, hsteps'⟩⟩

theorem exists_visits (hregistry : session.registry = .standard) {steps' : List Inline.Step}
    {scopes scopes' : Inline.Scopes}
    (hvisits : (Inline.evaluator session.top).Visits scopes sources steps' scopes')
    (hlayered : world.memory.Layered) (hscopes : scopes = world.memory.scopes) :
    ∃ steps world', session.evaluator.Visits world sources steps world' ∧ AddFree steps ∧
      steps' = steps.map Step.inline ∧ scopes' = world'.memory.scopes := by
  induction hvisits generalizing world with
  | start => exact ⟨[], world, .start, nofun, rfl, hscopes⟩
  | rejected hreject _ ih =>
      obtain ⟨steps, world', hvisits, hmoment⟩ := ih hlayered hscopes
      exact ⟨steps, world', .rejected hreject hvisits, hmoment⟩
  | inside haccept hcomes' =>
      subst hscopes
      obtain ⟨steps, world', hcomes, hmoment⟩ :=
        (mirrors_program hregistry hlayered _).exists_comes hcomes'
      exact ⟨steps, world', .inside haccept hcomes, hmoment⟩
  | accepted haccept hends' _ ih =>
      subst hscopes
      obtain ⟨inner, value, middle, hends, hfree, rfl, rfl, rfl⟩ :=
        exists_ends hregistry hlayered hends'
      obtain ⟨-, hevolves, -, -⟩ := ends_inline hregistry hlayered hends hfree
      obtain ⟨outer, world', hvisits, hfree', rfl, rfl⟩ := ih hevolves.layered rfl
      exact ⟨_, world', .accepted haccept hends hvisits, addFree_append.mpr ⟨hfree, hfree'⟩,
        List.map_append.symm, rfl⟩

theorem scopes_of_create {console : Host.Console} {files : Host.Directory}
    (hnew : (Session.create .standard).run (.initial console files) = some (session, world)) :
    session.registry = .standard ∧ world.memory.Layered ∧ world.memory.scopes = .initial := by
  cases hnew
  refine ⟨rfl, (Memory.Layered.empty.newFrame none).layered, ?_⟩
  have hempty : Memory.empty.scopes = #[] := Array.map_empty
  have hframe := congrArg Prod.snd (Memory.Layered.empty.scopes_newFrame none)
  rw [hempty] at hframe
  exact hframe.symm

/-- Without `add`, arrays are immutable values. A session with the standard functions is fed any
sources. If it comes to an end with them and has not called `add`, then the evaluator with arrays
inline comes to an end too, with the same steps and outcomes, and whenever that one comes to an end,
so does the session, without `add`. The moments on the way agree as well, also if the sources do not
come to an end. Values, names and scopes agree in that arrays are unfolded. -/
theorem arrays_are_values {console : Host.Console} {files : Host.Directory}
    (hnew : (Session.create .standard).run (.initial console files) = some (session, world))
    (sources : List String) :
    (∀ outcomes world',
      (∃ fuel, (sources.mapM (session.evalSource fuel)).run world = some (outcomes, world')) ↔
        ∃ steps, session.evaluator.Feeds world sources steps outcomes world') ∧
    (∀ outcomes scopes,
      (∃ fuel, (sources.mapM (Inline.evalSource fuel session.top)).run .initial =
        some (outcomes, scopes)) ↔
        ∃ steps, (Inline.evaluator session.top).Feeds .initial sources steps outcomes scopes) ∧
    (∀ steps outcomes world', session.evaluator.Feeds world sources steps outcomes world' →
      AddFree steps →
        (Inline.evaluator session.top).Feeds .initial sources (steps.map Step.inline)
          (outcomes.map (.map world'.memory.inline)) world'.memory.scopes ∧
        (∀ value, .ok value ∈ outcomes →
          world'.memory.Represents value (world'.memory.inline value)) ∧
        world'.memory.Faithful [] ∧ ∀ step ∈ steps, step.Faithful) ∧
    (∀ steps' outcomes' scopes',
      (Inline.evaluator session.top).Feeds .initial sources steps' outcomes' scopes' →
        ∃ steps outcomes world', session.evaluator.Feeds world sources steps outcomes world' ∧
          AddFree steps ∧ steps' = steps.map Step.inline ∧
          outcomes' = outcomes.map (.map world'.memory.inline) ∧
          scopes' = world'.memory.scopes) ∧
    (∀ steps world', session.evaluator.Visits world sources steps world' → AddFree steps →
      (Inline.evaluator session.top).Visits .initial sources (steps.map Step.inline)
        world'.memory.scopes ∧
      world'.memory.Faithful [] ∧ ∀ step ∈ steps, step.Faithful) ∧
    ∀ steps' scopes', (Inline.evaluator session.top).Visits .initial sources steps' scopes' →
      ∃ steps world', session.evaluator.Visits world sources steps world' ∧ AddFree steps ∧
        steps' = steps.map Step.inline ∧ scopes' = world'.memory.scopes := by
  obtain ⟨hregistry, hlayered, hscopes⟩ := scopes_of_create hnew
  rw [← hscopes]
  refine ⟨fun _ _ => (answers_evalSource session).exists_run_iff,
    fun _ _ => (Inline.answers_evalSource session.top).exists_run_iff, ?_, ?_, ?_, ?_⟩
  · intro steps outcomes world' hfeeds hfree
    obtain ⟨hinline, hevolves, hvalues, hsteps⟩ :=
      feeds_inline hregistry hlayered hfeeds hfree
    exact ⟨hinline, fun value hvalue => hevolves.layered.represents (hvalues value hvalue),
      hevolves.layered.faithful nofun, fun step hstep => (hsteps step hstep).faithful⟩
  · intro steps' outcomes' scopes' hfeeds
    exact exists_feeds hregistry hfeeds hlayered rfl
  · intro steps world' hvisits hfree
    obtain ⟨hinline, hlayered', hsteps⟩ := visits_inline hregistry hlayered hvisits hfree
    exact ⟨hinline, hlayered'.faithful nofun, fun step hstep => (hsteps step hstep).faithful⟩
  · intro steps' scopes' hvisits
    exact exists_visits hregistry hvisits hlayered rfl

/-- Sources that share an array, make new ones out of it, fail and are rejected. -/
def sharing : List String :=
  ["let a = [1, 2]; let b = [a, a]; let f = fn(x) \x7b push(b, x) \x7d", "f(rest(a))", "a + b",
    "let"]

theorem arrays_are_values_sharing :
    ∃ steps outcomes world',
      Session.fresh.evaluator.Feeds .fresh sharing steps outcomes world' ∧ AddFree steps ∧
        outcomes.map (fun outcome => outcome.toOption.bind world'.memory.text?) =
          [some "null", some "[[1, 2], [1, 2], [2]]",
            some "Error: unknown operator: ARRAY + ARRAY", none] := by
  have hnew : (Session.create .standard).run (.initial (.ofInput []) .empty) =
      some (.fresh, .fresh) := rfl
  have hrun : ((sharing.mapM (Inline.evalSource 20 ⟨0⟩)).run .initial).map
      (fun reply => reply.1.map fun outcome => outcome.toOption.map Inline.text) =
        some [some "null", some "[[1, 2], [1, 2], [2]]",
          some "Error: unknown operator: ARRAY + ARRAY", none] := by
    decide +kernel
  obtain ⟨⟨outcomes', scopes'⟩, hrun, htexts⟩ := Option.map_eq_some_iff.mp hrun
  obtain ⟨-, hinline, hforward, hbackward, -⟩ := arrays_are_values hnew sharing
  obtain ⟨steps', hfeeds'⟩ := (hinline outcomes' scopes').mp ⟨20, hrun⟩
  obtain ⟨steps, outcomes, world', hfeeds, hfree, rfl, rfl, rfl⟩ := hbackward _ _ _ hfeeds'
  obtain ⟨-, hrepresents, -⟩ := hforward _ _ _ hfeeds hfree
  refine ⟨steps, outcomes, world', hfeeds, hfree, ?_⟩
  rw [← htexts, List.map_map]
  refine List.map_congr_left fun outcome houtcome => ?_
  cases outcome with
  | error => rfl
  | ok value => exact (hrepresents value houtcome).text

end Session

end

end Monkey
