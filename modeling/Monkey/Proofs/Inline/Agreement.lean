import Monkey.Proofs.Evaluation.Steps
import Monkey.Proofs.Inline.Evaluation
import Monkey.Proofs.Inline.Operations

/-! # Evaluation in memory and inline

Each level of evaluation does the same in memory and with arrays inline, unless it is a call of
`add` (`Session.plan_mirrors`). So the two evaluators go through the same steps for as long as `add`
is not called: a trace in memory, with its values inline, is a trace without memory, and every trace
without memory is that of a run in memory.
-/

namespace Monkey

def Task.inline (memory : Memory) : Task → Inline.Task
  | .expr frame e => .expr frame e
  | .exprs frame es => .exprs frame es
  | .loop frame condition body collected =>
    .loop frame condition body (collected.toList.map memory.inline)
  | .stmt frame s => .stmt frame s
  | .block frame body value => .block frame body (memory.inline value)
  | .apply callee args => .apply (memory.inline callee) (args.map memory.inline)
  | .program frame p => .program frame p

def Result.inline (memory : Memory) : Result → Inline.Result
  | .one value => .one (memory.inline value)
  | .many values => .many (values.map memory.inline)

/-- The task comes with values of memory. -/
abbrev Task.In (memory : Memory) (task : Task) : Prop :=
  ∀ value ∈ task.values, value.In memory

abbrev Result.In (memory : Memory) (result : Result) : Prop :=
  ∀ value ∈ result.values, value.In memory

/-- The step with values inline, as memory was before and after it. -/
def Step.inline (step : Step) : Inline.Step :=
  ⟨step.task.inline step.before.memory, step.before.memory.scopes,
    step.result.inline step.after.memory, step.after.memory.scopes⟩

/-- The values of the step refer to arrays that can be written inline. -/
structure Step.Layered (step : Step) : Prop where
  before : step.before.memory.Layered
  task : step.task.In step.before.memory
  after : step.after.memory.Layered
  result : step.result.In step.after.memory

/-- None of the steps is a call of `add`. -/
def AddFree (steps : List Step) : Prop :=
  ∀ step ∈ steps, ∀ args, step.task ≠ .apply (.builtin .add) args

/-- The second plan does with arrays inline what the first does in memory, if the tasks that they
hand on have results that correspond. -/
def Plan.Mirrors (start : Memory) : Plan → Inline.Plan → Prop
  | done result world, inlined =>
    start.Evolves world.memory ∧ result.In world.memory ∧
      inlined = .done (result.inline world.memory) world.memory.scopes
  | stuck, inlined => inlined = .stuck
  | pass world next, inlined =>
    world.memory.Layered ∧
      ∃ next', inlined = .pass world.memory.scopes next' ∧ next.Mirrors start next'
  | call session task world next, inlined =>
    session.registry = .standard ∧ world.memory.Layered ∧ task.In world.memory ∧
      ∃ next', inlined = .call (task.inline world.memory) world.memory.scopes next' ∧
        ∀ result world', world.memory.Evolves world'.memory → result.In world'.memory →
          (next result world').Mirrors start
            (next' (result.inline world'.memory) world'.memory.scopes)

/-! ## Levels -/

section

variable {session : Session} {task : Task} {start : Memory} {world : World}

theorem Task.in_of_values {memory : Memory} (hvalues : task.values = []) : task.In memory := by
  rw [Task.In, hvalues]
  exact nofun

theorem Task.in_block_null (memory : Memory) (frame : FrameRef) (body : Block) :
    (Task.block frame body .null).In memory :=
  List.forall_mem_singleton.mpr trivial

theorem mirrors_done (hworld : start.Evolves world.memory) {value : Value} {inlined : Inline}
    (hvalue : value.In world.memory) (hinlined : inlined = world.memory.inline value) :
    (Plan.done (.one value) world).Mirrors start
      (.done (.one inlined) world.memory.scopes) := by
  refine ⟨hworld, ?_, ?_⟩
  · exact List.forall_mem_singleton.mpr hvalue
  · rw [hinlined]
    rfl

theorem mirrors_newArray (hworld : start.Evolves world.memory) {elements : Array Value}
    (helements : ∀ value ∈ elements, value.In world.memory) :
    (Plan.newArray elements world).Mirrors start
      (.done (.one (.array (elements.toList.map world.memory.inline))) world.memory.scopes) := by
  have hevolves := hworld.layered.newArray helements
  rw [← hevolves.grows.scopes_eq hworld.layered rfl]
  refine mirrors_done (hworld.trans hevolves) ?_ (hworld.layered.inline_newArray helements).symm
  simp [Value.Within, Memory.newArray]

theorem mirrors_relay (hregistry : session.registry = .standard)
    (hworld : start.Evolves world.memory) (htask : task.In world.memory) :
    (Plan.call session task world .done).Mirrors start
      (.call (task.inline world.memory) world.memory.scopes .done) :=
  ⟨hregistry, hworld.layered, htask, _, rfl, fun _ _ hevolves hresult =>
    ⟨hworld.trans hevolves, hresult, rfl⟩⟩

theorem mirrors_unwrapReturn (hregistry : session.registry = .standard)
    (hworld : start.Evolves world.memory) (htask : task.In world.memory) :
    (Plan.call session task world fun result => .done result.unwrapReturn).Mirrors start
      (.call (task.inline world.memory) world.memory.scopes
        fun result => .done result.unwrapReturn) := by
  refine ⟨hregistry, hworld.layered, htask, _, rfl, fun result world' hevolves hresult => ?_⟩
  cases result with
  | one value =>
      exact mirrors_done (hworld.trans hevolves) (hresult value List.mem_cons_self).unwrapReturn
        (Memory.unwrapReturn_inline _ _)
  | many values => exact ⟨hworld.trans hevolves, hresult, rfl⟩

theorem mirrors_andThen (hregistry : session.registry = .standard)
    (hworld : start.Evolves world.memory) (htask : task.values = [])
    {next : Value → World → Plan} {next' : Inline → Inline.Scopes → Inline.Plan}
    (hnext : ∀ value world', world.memory.Evolves world'.memory → value.In world'.memory →
      (next value world').Mirrors start
        (next' (world'.memory.inline value) world'.memory.scopes)) :
    (Plan.call session task world (.andThen next)).Mirrors start
      (.call (task.inline world.memory) world.memory.scopes (.andThen next')) := by
  refine ⟨hregistry, hworld.layered, Task.in_of_values htask, _, rfl,
    fun result world' hevolves hresult => ?_⟩
  cases result with
  | many values => rfl
  | one value =>
      have hvalue := hresult value List.mem_cons_self
      rw [Result.inline, Plan.andThen, Inline.Plan.andThen, Memory.isAbrupt_inline]
      split
      · exact mirrors_done (hworld.trans hevolves) hvalue rfl
      · exact hnext value world' hevolves hvalue

theorem mirrors_withValues (hregistry : session.registry = .standard)
    (hworld : start.Evolves world.memory) (htask : task.values = [])
    {next : List Value → World → Plan} {next' : List Inline → Inline.Scopes → Inline.Plan}
    (hnext : ∀ values world', world.memory.Evolves world'.memory →
      (∀ value ∈ values, value.In world'.memory) →
      (next values world').Mirrors start
        (next' (values.map world'.memory.inline) world'.memory.scopes)) :
    (Plan.call session task world (.withValues next)).Mirrors start
      (.call (task.inline world.memory) world.memory.scopes (.withValues next')) := by
  refine ⟨hregistry, hworld.layered, Task.in_of_values htask, _, rfl,
    fun result world' hevolves hresult => ?_⟩
  cases result with
  | one value => exact ⟨hworld.trans hevolves, hresult, rfl⟩
  | many values => exact hnext values world' hevolves hresult

theorem mirrors_planExpr (hregistry : session.registry = .standard)
    (hlayered : world.memory.Layered) (frame : FrameRef) (e : Expr) :
    (session.planExpr frame world e).Mirrors world.memory
      (Inline.planExpr frame world.memory.scopes e) := by
  have hstart := hlayered.refl
  cases e with
  | ident name =>
      exact mirrors_done hstart (hlayered.in_resolve hregistry frame name)
        (Memory.resolve_scopes hregistry _ frame name)
  | int | float | bool | string => exact mirrors_done hstart trivial rfl
  | array elements =>
      refine mirrors_withValues hregistry hstart rfl fun values world' hevolves hvalues => ?_
      exact mirrors_newArray hevolves (by simpa using hvalues)
  | unary op operand =>
      refine mirrors_andThen hregistry hstart rfl fun value world' hevolves hvalue => ?_
      refine mirrors_done hevolves ?_ (inline_unary op value).symm
      exact (Value.isPlain_ofExcept fun _ => UnaryOp.isPlain_of_apply).within _ _
  | binary op left right =>
      refine mirrors_andThen hregistry hstart rfl fun left world' hevolves hleft => ?_
      refine mirrors_andThen hregistry hevolves rfl fun right world'' hevolves' hright => ?_
      rw [← hevolves'.grows.inline_eq hevolves.layered hleft]
      refine mirrors_done (hevolves.trans hevolves') ?_ (inline_binary op left right).symm
      exact (Value.isPlain_ofExcept fun _ => BinaryOp.isPlain_of_apply).within _ _
  | index collection index =>
      refine mirrors_andThen hregistry hstart rfl fun value world' hevolves hvalue => ?_
      refine mirrors_andThen hregistry hevolves rfl fun position world'' hevolves' hposition => ?_
      rw [← hevolves'.grows.inline_eq hevolves.layered hvalue]
      exact mirrors_done (hevolves.trans hevolves') (in_index hevolves'.layered value position)
        (inline_index hevolves'.layered (hevolves'.grows.within hvalue)).symm
  | conditional condition consequence alternative =>
      refine mirrors_andThen hregistry hstart rfl fun value world' hevolves hvalue => ?_
      simp only [Memory.isTruthy_inline]
      exact mirrors_relay hregistry hevolves (Task.in_block_null _ _ _)
  | loop condition body => exact mirrors_relay hregistry hstart (Task.in_of_values rfl)
  | function params body =>
      have hevolves := hlayered.newFunction ⟨params, body, frame⟩
      rw [Inline.planExpr, ← hevolves.grows.scopes_eq hlayered rfl]
      refine mirrors_done hevolves ?_ ?_
      · simp [Value.Within, Memory.newFunction]
      · simp [Memory.inline, Value.inlineWith, Memory.function?, Memory.newFunction]
  | call callee args =>
      refine mirrors_andThen hregistry hstart rfl fun callee world' hevolves hcallee => ?_
      refine mirrors_withValues hregistry hevolves rfl fun args world'' hevolves' hargs => ?_
      rw [← hevolves'.grows.inline_eq hevolves.layered hcallee]
      refine mirrors_relay hregistry (hevolves.trans hevolves') ?_
      exact List.forall_mem_cons.mpr ⟨hevolves'.grows.within hcallee, hargs⟩

theorem mirrors_planStmt (hregistry : session.registry = .standard)
    (hlayered : world.memory.Layered) (frame : FrameRef) (s : Stmt) :
    (session.planStmt frame world s).Mirrors world.memory
      (Inline.planStmt frame world.memory.scopes s) := by
  have hstart := hlayered.refl
  cases s with
  | bind name value =>
      refine mirrors_andThen hregistry hstart rfl fun value world' hevolves hvalue => ?_
      rw [← hevolves.layered.scopes_bind frame name hvalue]
      exact mirrors_done (hevolves.trans (hevolves.layered.bind frame name hvalue)) trivial rfl
  | ret value =>
      refine mirrors_andThen hregistry hstart rfl fun value world' hevolves hvalue => ?_
      exact mirrors_done hevolves hvalue rfl
  | expr value => exact mirrors_relay hregistry hstart (Task.in_of_values rfl)
  | block body =>
      exact mirrors_relay hregistry hstart (Task.in_block_null _ _ _)

theorem mirrors_planRound (hregistry : session.registry = .standard)
    (hworld : start.Evolves world.memory) {collected : Array Value}
    (hcollected : ∀ value ∈ collected, value.In world.memory) {result : Result}
    (hresult : result.In world.memory) (frame : FrameRef) (condition : Expr) (body : Block) :
    (session.planRound frame condition body collected result world).Mirrors start
      (Inline.planRound frame condition body (collected.toList.map world.memory.inline)
        (result.inline world.memory) world.memory.scopes) := by
  cases result with
  | many values => rfl
  | one value =>
      have hvalue := hresult value List.mem_cons_self
      -- A round that ends neither in an error nor in a pending return is collected.
      have hround : (Plan.call session (.loop frame condition body (collected.push value)) world
          .done).Mirrors start
          (.call (.loop frame condition body
            (collected.toList.map world.memory.inline ++ [world.memory.inline value]))
            world.memory.scopes .done) := by
        have hpush : collected.toList.map world.memory.inline ++ [world.memory.inline value] =
            (collected.push value).toList.map world.memory.inline := by
          simp
        rw [hpush]
        refine mirrors_relay hregistry hworld ?_
        simpa [Task.In, Task.values, or_imp, forall_and] using And.intro hcollected hvalue
      cases value with
      | error message =>
          exact mirrors_newArray hworld (by simp [Value.Within])
      | returned value => exact mirrors_done hworld hvalue rfl
      | _ => exact hround

theorem mirrors_loop (hregistry : session.registry = .standard) (hlayered : world.memory.Layered)
    {collected : Array Value} (hcollected : ∀ value ∈ collected, value.In world.memory)
    (frame : FrameRef) (condition : Expr) (body : Block) :
    (session.plan world (.loop frame condition body collected)).Mirrors world.memory
      (Inline.plan world.memory.scopes
        (.loop frame condition body (collected.toList.map world.memory.inline))) := by
  refine mirrors_andThen hregistry hlayered.refl rfl fun decision world' hevolves hdecision => ?_
  have hmap {memory : Memory} (hgrows : world.memory.Grows memory) :
      collected.toList.map memory.inline = collected.toList.map world.memory.inline :=
    List.map_congr_left fun value hvalue =>
      hgrows.inline_eq hlayered (hcollected value (Array.mem_toList_iff.mp hvalue))
  rw [Memory.isTruthy_inline]
  split
  · refine ⟨hregistry, hevolves.layered, Task.in_block_null _ _ _, _, rfl,
      fun result world'' hevolves' hresult => ?_⟩
    have hboth := hevolves.trans hevolves'
    rw [← hmap hboth.grows]
    exact mirrors_planRound hregistry hboth (fun value hvalue =>
      hboth.grows.within (hcollected value hvalue)) hresult frame condition body
  · rw [← hmap hevolves.grows]
    exact mirrors_newArray hevolves fun value hvalue =>
      hevolves.grows.within (hcollected value hvalue)

theorem mirrors_binding (hstart : start.Layered) (hworld : start.Evolves world.memory)
    {frame : FrameRef} {entries : List (String × Value)}
    (hentries : ∀ entry ∈ entries, entry.2.In start) {next : World → Plan}
    {next' : Inline.Scopes → Inline.Plan}
    (hnext : ∀ world', start.Evolves world'.memory →
      (next world').Mirrors start (next' world'.memory.scopes)) :
    (Plan.binding frame next entries world).Mirrors start
      (.binding frame next' (entries.map (.map id start.inline)) world.memory.scopes) := by
  induction entries generalizing world with
  | nil => exact hnext world hworld
  | cons entry rest ih =>
      obtain ⟨hentry, hrest⟩ := List.forall_mem_cons.mp hentries
      have hvalue := hworld.grows.within hentry
      have hbind := hworld.layered.scopes_bind frame entry.1 hvalue
      rw [hworld.grows.inline_eq hstart hentry] at hbind
      refine ⟨hworld.layered, _, rfl, ?_⟩
      rw [Prod.map_fst, Prod.map_snd, id_eq, ← hbind]
      exact ih (hworld.trans (hworld.layered.bind frame entry.1 hvalue)) hrest

theorem mirrors_planBuiltin (hlayered : world.memory.Layered) {builtin : Builtin}
    (hcore : builtin ∈ Builtin.core) (hadd : builtin ≠ .add) {args : List Value}
    (hargs : ∀ arg ∈ args, arg.In world.memory) :
    (session.planBuiltin world builtin args).Mirrors world.memory
      (Inline.planApply world.memory.scopes (.builtin builtin)
        (args.map world.memory.inline)) := by
  obtain ⟨expected, hcall, value, memory, hrun, hevolves, hframes, hvalue, hexpected⟩ :=
    exists_settles_call hlayered hcore hadd hargs (fun _ => failure) session.foreign
  have hget : ¬ (builtin = .get ∧ args = []) := by
    rintro ⟨rfl, -⟩
    simp [Builtin.core] at hcore
  rw [Session.planBuiltin, if_neg hget, hrun, Inline.planApply, hcall,
    ← hevolves.grows.scopes_eq hlayered hframes]
  exact mirrors_done hevolves hvalue hexpected.symm

theorem mirrors_planApply (hregistry : session.registry = .standard)
    (hlayered : world.memory.Layered) {callee : Value} {args : List Value}
    (hcallee : callee.In world.memory) (hargs : ∀ arg ∈ args, arg.In world.memory)
    (hadd : callee ≠ .builtin .add) :
    (session.planApply world callee args).Mirrors world.memory
      (Inline.planApply world.memory.scopes (world.memory.inline callee)
        (args.map world.memory.inline)) := by
  cases callee with
  | function ref =>
      obtain ⟨f, hf⟩ : ∃ f, world.memory.function? ref = some f :=
        ⟨_, Array.getElem?_eq_getElem hcallee⟩
      rw [Session.planApply, Memory.inline, Value.inlineWith, hf, Option.getD_some,
        Inline.planApply, List.length_map]
      dsimp only
      split
      · have hevolves := hlayered.newFrame (some f.frame)
        rw [hlayered.scopes_newFrame, List.zip_map_right]
        refine mirrors_binding hlayered hevolves (fun entry hentry => ?_) fun world' hworld' => ?_
        · exact hargs entry.2 (List.of_mem_zip hentry).2
        · exact mirrors_unwrapReturn hregistry hworld'
            (Task.in_block_null _ _ _)
      · exact mirrors_done hlayered.refl trivial rfl
  | builtin builtin =>
      exact mirrors_planBuiltin hlayered hcallee (fun h => hadd (congrArg Value.builtin h)) hargs
  | _ => exact mirrors_done hlayered.refl trivial rfl

/-- No level but a call of `add` can tell memory from inline values. -/
theorem Session.plan_mirrors (hregistry : session.registry = .standard)
    (hlayered : world.memory.Layered) (htask : task.In world.memory)
    (hadd : ∀ args, task ≠ .apply (.builtin .add) args) :
    (session.plan world task).Mirrors world.memory
      (Inline.plan world.memory.scopes (task.inline world.memory)) := by
  have hstart := hlayered.refl
  cases task with
  | expr frame e => exact mirrors_planExpr hregistry hlayered frame e
  | exprs frame es =>
      cases es with
      | nil => exact ⟨hstart, nofun, rfl⟩
      | cons first rest =>
          refine mirrors_andThen hregistry hstart rfl fun value world' hevolves hvalue => ?_
          refine mirrors_withValues hregistry hevolves rfl
            fun values world'' hevolves' hvalues => ?_
          rw [← hevolves'.grows.inline_eq hevolves.layered hvalue]
          exact ⟨hevolves.trans hevolves',
            List.forall_mem_cons.mpr ⟨hevolves'.grows.within hvalue, hvalues⟩, rfl⟩
  | loop frame condition body collected =>
      exact mirrors_loop hregistry hlayered (fun value hvalue =>
        htask value (Array.mem_toList_iff.mpr hvalue)) frame condition body
  | stmt frame s => exact mirrors_planStmt hregistry hlayered frame s
  | block frame body value =>
      cases body with
      | nil => exact mirrors_done hstart (htask value List.mem_cons_self) rfl
      | cons first rest =>
          refine mirrors_andThen hregistry hstart rfl fun value world' hevolves hvalue => ?_
          exact mirrors_relay hregistry hevolves (List.forall_mem_singleton.mpr hvalue)
  | apply callee args =>
      obtain ⟨hcallee, hargs⟩ := List.forall_mem_cons.mp htask
      refine mirrors_planApply hregistry hlayered hcallee hargs ?_
      rintro rfl
      exact hadd args rfl
  | program frame p =>
      exact mirrors_unwrapReturn hregistry hstart (Task.in_block_null _ _ _)

end

/-! ## Traces -/

section

variable {plan : Plan} {inlined : Inline.Plan} {start : Memory} {steps : List Step}
  {result : Result} {world : World} {session : Session} {task : Task}

theorem addFree_append {steps steps' : List Step} :
    AddFree (steps ++ steps') ↔ AddFree steps ∧ AddFree steps' :=
  List.forall_mem_append

theorem addFree_append_cons {inner outer : List Step} {step : Step} :
    AddFree (inner ++ step :: outer) ↔
      AddFree inner ∧ (∀ args, step.task ≠ .apply (.builtin .add) args) ∧ AddFree outer := by
  rw [addFree_append]
  exact and_congr_right fun _ => List.forall_mem_cons

theorem Task.isRounds_inline (memory : Memory) (task : Task) :
    (task.inline memory).isRounds = task.isRounds := by
  cases task with
  | _ => rfl

theorem not_comes_ofAnswer {reply : Option (Value × World)} :
    ¬ (Plan.ofAnswer reply).Comes steps world := by
  intro hcomes
  cases reply with
  | none => cases hcomes
  | some reply => cases hcomes

/-- A call of `add` hands nothing on. -/
theorem ne_add_of_comes {world' : World} (hcomes : (session.plan world task).Comes steps world')
    (args : List Value) : task ≠ .apply (.builtin .add) args := by
  rintro rfl
  exact not_comes_ofAnswer hcomes

/-- With arrays inline a call of `add` has no answer. -/
theorem ne_add_of_inline_takes {memory : Memory} {scopes scopes' : Inline.Scopes}
    {steps' : List Inline.Step} {result' : Inline.Result}
    (htakes : (Inline.plan scopes (task.inline memory)).Takes steps' result' scopes')
    (args : List Value) : task ≠ .apply (.builtin .add) args := by
  rintro rfl
  change Inline.Plan.stuck.Takes _ _ _ at htakes
  cases htakes

theorem ne_add_of_inline_comes {memory : Memory} {scopes scopes' : Inline.Scopes}
    {steps' : List Inline.Step}
    (hcomes : (Inline.plan scopes (task.inline memory)).Comes steps' scopes')
    (args : List Value) : task ≠ .apply (.builtin .add) args := by
  rintro rfl
  change Inline.Plan.stuck.Comes _ _ at hcomes
  cases hcomes

namespace Plan.Mirrors

theorem of_done {result' : Inline.Result} {scopes : Inline.Scopes}
    (hmirrors : plan.Mirrors start (.done result' scopes)) :
    ∃ result world, plan = done result world ∧ result' = result.inline world.memory ∧
      scopes = world.memory.scopes ∧ start.Evolves world.memory ∧ result.In world.memory := by
  cases plan with
  | done result world =>
      obtain ⟨hevolves, hresult, heq⟩ := hmirrors
      cases heq
      exact ⟨result, world, rfl, rfl, rfl, hevolves, hresult⟩
  | stuck => cases hmirrors
  | pass world next =>
      obtain ⟨-, next', heq, -⟩ := hmirrors
      cases heq
  | call session task world next =>
      obtain ⟨-, -, -, next', heq, -⟩ := hmirrors
      cases heq

theorem of_pass {scopes : Inline.Scopes} {next' : Inline.Plan}
    (hmirrors : plan.Mirrors start (.pass scopes next')) :
    ∃ world next, plan = pass world next ∧ scopes = world.memory.scopes ∧
      next.Mirrors start next' := by
  cases plan with
  | done result world => cases hmirrors.2.2
  | stuck => cases hmirrors
  | pass world next =>
      obtain ⟨-, next', heq, hnext⟩ := hmirrors
      cases heq
      exact ⟨world, next, rfl, rfl, hnext⟩
  | call session task world next =>
      obtain ⟨-, -, -, next', heq, -⟩ := hmirrors
      cases heq

theorem of_call {task' : Inline.Task} {scopes : Inline.Scopes}
    {next' : Inline.Result → Inline.Scopes → Inline.Plan}
    (hmirrors : plan.Mirrors start (.call task' scopes next')) :
    ∃ session task world next, plan = call session task world next ∧
      task' = task.inline world.memory ∧ scopes = world.memory.scopes ∧
      session.registry = .standard ∧ world.memory.Layered ∧ task.In world.memory ∧
      ∀ result world', world.memory.Evolves world'.memory → result.In world'.memory →
        (next result world').Mirrors start
          (next' (result.inline world'.memory) world'.memory.scopes) := by
  cases plan with
  | done result world => cases hmirrors.2.2
  | stuck => cases hmirrors
  | pass world next =>
      obtain ⟨-, next', heq, -⟩ := hmirrors
      cases heq
  | call session task world next =>
      obtain ⟨hregistry, hlayered, htask, next', heq, hnext⟩ := hmirrors
      cases heq
      exact ⟨session, task, world, next, rfl, rfl, rfl, hregistry, hlayered, htask, hnext⟩

/-- A run without `add` is a run with arrays inline. -/
theorem takes (hmirrors : plan.Mirrors start inlined) (htakes : plan.Takes steps result world)
    (hfree : AddFree steps) :
    inlined.Takes (steps.map Step.inline) (result.inline world.memory) world.memory.scopes ∧
      start.Evolves world.memory ∧ result.In world.memory ∧ ∀ step ∈ steps, step.Layered := by
  induction htakes generalizing start inlined with
  | done =>
      obtain ⟨hevolves, hresult, rfl⟩ := hmirrors
      exact ⟨.done, hevolves, hresult, nofun⟩
  | pass _ ih =>
      obtain ⟨-, next', rfl, hnext⟩ := hmirrors
      obtain ⟨htakes, hends⟩ := ih hnext hfree
      exact ⟨.pass htakes, hends⟩
  | call _ _ _ ihtask ihnext =>
      obtain ⟨hregistry, hlayered, htask, next', rfl, hnext⟩ := hmirrors
      obtain ⟨hinner, hadd, houter⟩ := addFree_append_cons.mp hfree
      obtain ⟨htakes, hevolves, hresult, hsteps⟩ :=
        ihtask (Session.plan_mirrors hregistry hlayered htask hadd) hinner
      obtain ⟨htakes', hevolves', hresult', hsteps'⟩ :=
        ihnext (hnext _ _ hevolves hresult) houter
      simp only [List.map_append, List.map_cons, List.forall_mem_append, List.forall_mem_cons]
      exact ⟨.call htakes htakes', hevolves', hresult', hsteps,
        ⟨hlayered, htask, hevolves.layered, hresult⟩, hsteps'⟩

/-- Every run with arrays inline is that of a run in memory, one without `add`. -/
theorem exists_takes (hmirrors : plan.Mirrors start inlined) {steps' : List Inline.Step}
    {result' : Inline.Result} {scopes' : Inline.Scopes}
    (htakes : inlined.Takes steps' result' scopes') :
    ∃ steps result world, plan.Takes steps result world ∧ AddFree steps ∧
      steps' = steps.map Step.inline ∧ result' = result.inline world.memory ∧
      scopes' = world.memory.scopes ∧ start.Evolves world.memory ∧ result.In world.memory := by
  induction htakes generalizing start plan with
  | done =>
      obtain ⟨result, world, rfl, hends⟩ := hmirrors.of_done
      exact ⟨[], result, world, .done, nofun, rfl, hends⟩
  | pass _ ih =>
      obtain ⟨world, next, rfl, rfl, hnext⟩ := hmirrors.of_pass
      obtain ⟨steps, result, world', htakes, hends⟩ := ih hnext
      exact ⟨steps, result, world', .pass htakes, hends⟩
  | call htask _ ihtask ihnext =>
      obtain ⟨session, task, world, next, rfl, rfl, rfl, hregistry, hlayered, hin, hnext⟩ :=
        hmirrors.of_call
      have hadd := ne_add_of_inline_takes htask
      obtain ⟨inner, result, world', hinner, hfree, rfl, rfl, rfl, hevolves, hresult⟩ :=
        ihtask (Session.plan_mirrors hregistry hlayered hin hadd)
      obtain ⟨outer, result', world'', houter, hfree', rfl, hends⟩ :=
        ihnext (hnext result world' hevolves hresult)
      refine ⟨_, result', world'', .call hinner.ends hinner houter, ?_, ?_, hends⟩
      · exact addFree_append_cons.mpr ⟨hfree, hadd, hfree'⟩
      · rw [List.map_append, List.map_cons]
        rfl

/-- A run that is still going on comes to the same scopes in memory and inline. -/
theorem comes (hmirrors : plan.Mirrors start inlined) (hcomes : plan.Comes steps world)
    (hfree : AddFree steps) :
    inlined.Comes (steps.map Step.inline) world.memory.scopes ∧ world.memory.Layered ∧
      ∀ step ∈ steps, step.Layered := by
  induction hcomes generalizing start inlined with
  | pass =>
      obtain ⟨hlayered, next', rfl, -⟩ := hmirrors
      exact ⟨.pass, hlayered, nofun⟩
  | next _ ih =>
      obtain ⟨-, next', rfl, hnext⟩ := hmirrors
      obtain ⟨hcomes, hmoment⟩ := ih hnext hfree
      exact ⟨.next hcomes, hmoment⟩
  | call =>
      obtain ⟨-, hlayered, -, next', rfl, -⟩ := hmirrors
      exact ⟨.call, hlayered, nofun⟩
  | inside hinside ih =>
      obtain ⟨hregistry, hlayered, htask, next', rfl, -⟩ := hmirrors
      have hadd := ne_add_of_comes hinside
      obtain ⟨hcomes, hmoment⟩ :=
        ih (Session.plan_mirrors hregistry hlayered htask hadd) hfree
      exact ⟨.inside hcomes, hmoment⟩
  | ended _ hrounds htakes =>
      obtain ⟨hregistry, hlayered, htask, next', rfl, -⟩ := hmirrors
      obtain ⟨hinner, hadd, -⟩ := addFree_append_cons.mp hfree
      obtain ⟨htakes', hevolves, hresult, hsteps⟩ :=
        (Session.plan_mirrors hregistry hlayered htask hadd).takes htakes hinner
      simp only [List.map_append, List.map_singleton, List.forall_mem_append,
        List.forall_mem_singleton]
      exact ⟨.ended ((Task.isRounds_inline _ _).trans hrounds) htakes', hevolves.layered, hsteps,
        hlayered, htask, hevolves.layered, hresult⟩
  | after _ htakes _ ih =>
      obtain ⟨hregistry, hlayered, htask, next', rfl, hnext⟩ := hmirrors
      obtain ⟨hinner, hadd, houter⟩ := addFree_append_cons.mp hfree
      obtain ⟨htakes', hevolves, hresult, hsteps⟩ :=
        (Session.plan_mirrors hregistry hlayered htask hadd).takes htakes hinner
      obtain ⟨hcomes, hlayered', hsteps'⟩ := ih (hnext _ _ hevolves hresult) houter
      simp only [List.map_append, List.map_cons, List.forall_mem_append, List.forall_mem_cons]
      exact ⟨.after htakes' hcomes, hlayered', hsteps,
        ⟨hlayered, htask, hevolves.layered, hresult⟩, hsteps'⟩

theorem exists_comes (hmirrors : plan.Mirrors start inlined) {steps' : List Inline.Step}
    {scopes' : Inline.Scopes} (hcomes : inlined.Comes steps' scopes') :
    ∃ steps world, plan.Comes steps world ∧ AddFree steps ∧ steps' = steps.map Step.inline ∧
      scopes' = world.memory.scopes := by
  induction hcomes generalizing start plan with
  | pass =>
      obtain ⟨world, next, rfl, rfl, -⟩ := hmirrors.of_pass
      exact ⟨[], world, .pass, nofun, rfl, rfl⟩
  | next _ ih =>
      obtain ⟨world, next, rfl, rfl, hnext⟩ := hmirrors.of_pass
      obtain ⟨steps, world', hcomes, hmoment⟩ := ih hnext
      exact ⟨steps, world', .next hcomes, hmoment⟩
  | call =>
      obtain ⟨session, task, world, next, rfl, rfl, rfl, -⟩ := hmirrors.of_call
      exact ⟨[], world, .call, nofun, rfl, rfl⟩
  | inside hinside ih =>
      obtain ⟨session, task, world, next, rfl, rfl, rfl, hregistry, hlayered, hin, -⟩ :=
        hmirrors.of_call
      have hadd := ne_add_of_inline_comes hinside
      obtain ⟨steps, world', hcomes, hmoment⟩ :=
        ih (Session.plan_mirrors hregistry hlayered hin hadd)
      exact ⟨steps, world', .inside hcomes, hmoment⟩
  | ended hrounds htakes =>
      obtain ⟨session, task, world, next, rfl, rfl, rfl, hregistry, hlayered, hin, -⟩ :=
        hmirrors.of_call
      have hadd := ne_add_of_inline_takes htakes
      obtain ⟨inner, result, world', hinner, hfree, rfl, rfl, rfl, -⟩ :=
        (Session.plan_mirrors hregistry hlayered hin hadd).exists_takes htakes
      rw [Task.isRounds_inline] at hrounds
      refine ⟨_, world', .ended hinner.ends hrounds hinner, ?_, ?_, rfl⟩
      · exact addFree_append_cons.mpr ⟨hfree, hadd, nofun⟩
      · rw [List.map_append, List.map_singleton]
        rfl
  | after htakes _ ih =>
      obtain ⟨session, task, world, next, rfl, rfl, rfl, hregistry, hlayered, hin, hnext⟩ :=
        hmirrors.of_call
      have hadd := ne_add_of_inline_takes htakes
      obtain ⟨inner, result, world', hinner, hfree, rfl, rfl, rfl, hevolves, hresult⟩ :=
        (Session.plan_mirrors hregistry hlayered hin hadd).exists_takes htakes
      obtain ⟨outer, world'', houter, hfree', rfl, rfl⟩ :=
        ih (hnext result world' hevolves hresult)
      refine ⟨_, world'', .after hinner.ends hinner houter, ?_, ?_, rfl⟩
      · exact addFree_append_cons.mpr ⟨hfree, hadd, hfree'⟩
      · rw [List.map_append, List.map_cons]
        rfl

end Plan.Mirrors

end

end Monkey
