import Monkey.Proofs.Builtin.Effect
import Monkey.Proofs.Evaluation.Steps
import Monkey.Proofs.Program.Dialect

/-! # What one level does

A level hands tasks on: parts of its own task in the frame that it works in, calls, and the line
that `get` reads. What it works with are values that it came with, that its parts delivered or that
it found in memory. An abrupt value of a part ends it. By itself it changes the world at its end
and, when it calls a function, at its beginning, where the function gets a new frame. All this is
said once, by `Plan.Local`, for tasks of every form (`Session.plan_local`).
-/

namespace Monkey

/-- There are no foreign functions: calling one fails. -/
def Session.Closed (session : Session) : Prop :=
  session.foreign = fun name _ => throw (.unbound name)

theorem Session.Closed.standard {session : Session} (hsession : session.Closed) :
    session.standard.Closed :=
  hsession

/-- A new session with the standard functions. -/
def Session.fresh : Session := ⟨.standard, ⟨0⟩, fun name _ => throw (.unbound name)⟩

/-- The world of a new session without input and files. -/
def World.fresh : World := ⟨(Memory.empty.newFrame none).2, .ofInput [], .empty⟩

/-- Where a value comes from, given the frame that a level works in and the values seen so far. -/
inductive Value.From (session : Session) (frame : Option FrameRef) (memory : Memory)
    (seen : List Value) : Value → Prop
  | seen {value} (hvalue : value ∈ seen) : From session frame memory seen value
  | plain {value} (hvalue : value.IsPlain) : From session frame memory seen value
  | builtin {name builtin} (hget : session.registry.get? name = some builtin) :
    From session frame memory seen (.builtin builtin)
  | bound {place name value} (hframe : frame = some place)
    (hlookup : memory.lookup? place name = some value) : From session frame memory seen value
  | element {ref value} (harray : .array ref ∈ seen) (hvalue : value ∈ memory.elements ref) :
    From session frame memory seen value
  | carried {value} (hreturned : .returned value ∈ seen) : From session frame memory seen value

/-- Only a single value is abrupt. -/
def Result.isAbrupt : Result → Bool
  | one value => value.isAbrupt
  | many _ => false

namespace Task

/-! ## Forms of tasks -/

/-- The frame that a task works in. A call works in none of those that exist. -/
def frame? : Task → Option FrameRef
  | .expr frame _ | .exprs frame _ | .loop frame .. | .stmt frame _ | .block frame ..
  | .program frame _ => some frame
  | .apply .. => none

/-- The values that a task works with from the beginning. A call only looks at what its callee
is. -/
def given : Task → List Value
  | .loop _ _ _ collected => collected.toList
  | .block _ _ value => [value]
  | .apply _ args => args
  | _ => []

/-- The task is no call of a builtin function, which is a single step. -/
def Composite (task : Task) : Prop :=
  ∀ builtin args, task ≠ .apply (.builtin builtin) args

/-- The tasks that deliver an array only if they have created it. -/
def builds : Task → Bool
  | .expr _ (.array _) | .expr _ (.loop ..) | .loop .. | .apply (.builtin .rest) _
  | .apply (.builtin .push) _ => true
  | _ => false

/-- A loop, from its beginning or after some rounds. -/
def isLoop : Task → Bool
  | .expr _ (.loop ..) | .loop .. => true
  | _ => false

/-- Several values are the result of a list of expressions only, and there a single value stands for
all of them only if it is abrupt. -/
def Proper : Task → Result → Prop
  | .exprs .., .one value => value.isAbrupt = true
  | .exprs .., .many _ => True
  | _, .one _ => True
  | _, .many _ => False

/-- The task delivers the result of its last part as its own. -/
inductive Relays : Task → Task → Prop
  | branch {place condition consequence alternative body value} :
    Relays (.expr place (.conditional condition consequence alternative)) (.block place body value)
  | loop {place condition body collected} :
    Relays (.expr place (.loop condition body)) (.loop place condition body collected)
  | call {place callee args f values} : Relays (.expr place (.call callee args)) (.apply f values)
  | expr {place e} : Relays (.stmt place (.expr e)) (.expr place e)
  | stmts {place body value} : Relays (.stmt place (.block body)) (.block place body value)
  | rest {place first rest value value'} :
    Relays (.block place (first :: rest) value) (.block place rest value')
  | round {place condition body collected collected'} :
    Relays (.loop place condition body collected) (.loop place condition body collected')
  | line {place p} : Relays (.apply (.builtin .get) []) (.program place p)

/-- What the level of a task makes of an abrupt value of a part. A loop hands an error of its body
over in an array, a call and a program end with the value of a pending return, and any other task
ends with the abrupt value itself. -/
def onAbrupt : Task → Task → Value → World → Plan
  | .loop .., .block .., .error message, world => .newArray #[.error message] world
  | .apply .., _, value, world | .program .., _, value, world =>
    .done (.one value.unwrapReturn) world
  | _, _, value, world => .done (.one value) world

end Task

/-! ## Code of tasks -/

namespace Dialect

/-- The code of the task is in the dialect. A call comes with values only. -/
def task (dialect : Dialect) : Task → Prop
  | .expr _ e => dialect.expr e
  | .exprs _ es => ∀ e ∈ es, dialect.expr e
  | .loop _ condition body _ => dialect.expr (.loop condition body)
  | .stmt _ s => dialect.stmt s
  | .block _ body _ => dialect.block body
  | .apply .. => True
  | .program _ p => dialect.block p

/-- The code that the level of the task works on is in the dialect. For a call of a function it is
that of the function. -/
def level (dialect : Dialect) (memory : Memory) : Task → Prop
  | .apply (.function ref) _ => ∀ function, memory.function? ref = some function →
    dialect.expr (.function function.params function.body)
  | task => dialect.task task

end Dialect

/-! ## Levels -/

namespace Task

/-- How the level of a task ends: the result, and the world after it. -/
inductive Does (session : Session) (frame : Option FrameRef) (world : World)
    (seen : List Value) : Task → Result → World → Prop
  | deliver {task value} (htask : task.Composite)
    (hvalue : value.From session frame world.memory seen) (hproper : task.Proper (.one value))
    (hbuilds : task.builds = true → value.isAbrupt = true) :
    Does session frame world seen task (.one value) world
  | many {place es values} (hvalues : ∀ value ∈ values, value ∈ seen) :
    Does session frame world seen (.exprs place es) (.many values) world
  | ret {place e value} (hvalue : value ∈ seen) :
    Does session frame world seen (.stmt place (.ret e)) (.one (.returned value)) world
  | array {task elements} (htask : task.Composite) (hbuilds : task.builds = true)
    (hvalues : ∀ value ∈ elements, value ∈ seen) :
    Does session frame world seen task (.one (.array (world.memory.newArray elements).1))
      { world with memory := (world.memory.newArray elements).2 }
  | function {place params body} :
    Does session frame world seen (.expr place (.function params body))
      (.one (.function (world.memory.newFunction ⟨params, body, place⟩).1))
      { world with memory := (world.memory.newFunction ⟨params, body, place⟩).2 }
  | bind {place name e value} (hvalue : value ∈ seen) :
    Does session frame world seen (.stmt place (.bind name e)) (.one .null)
      { world with memory := world.memory.bind place name value }
  | builtin {builtin args value world'}
    (hrun : (Eval.settle (builtin.call (fun _ => failure) session.foreign args)).run world =
      some (value, world')) :
    Does session frame world seen (.apply (.builtin builtin) args) (.one value) world'

/-- A part that the level of a task hands on when it works in the given frame. -/
structure Part (frame : Option FrameRef) (world : World) (seen : List Value)
    (task part : Task) : Prop where
  composite : task.Composite
  frame : part.frame? = none ∨ part.frame? = frame
  values : ∀ value ∈ part.values, value ∈ seen ∨ value = .null
  code : ∀ dialect : Dialect, dialect.level world.memory task → dialect.task part

/-- The tasks that a level may hand on, and the worlds that they begin in. -/
inductive Hands (session : Session) (frame : Option FrameRef) (world : World)
    (seen : List Value) (task : Task) : Session → Task → World → Prop
  | part {part : Task} (hpart : task.Part frame world seen part) :
    Hands session frame world seen task session part world
  | line {p started} (htask : task = .apply (.builtin .get) [])
    (hread : world.programLine? = some (p, started)) :
    Hands session frame world seen task session.standard (.program session.top p) started

/-- The frame that the level of a task works in, and the world when it begins. -/
inductive Enters (world : World) : Task → Option FrameRef → World → Prop
  | stay {task} : Enters world task task.frame? world
  | call {ref function args} (hfunction : world.memory.function? ref = some function) :
    Enters world (.apply (.function ref) args)
      (some (world.memory.newFrame (some function.frame)).1)
      { world with memory := (world.memory.newFrame (some function.frame)).2 }

end Task

/-- The plan is one for the level of a task, given the frame that it works in, the values seen so
far and the world as the level has left it. -/
inductive Plan.Local (session : Session) (task : Task) (frame : Option FrameRef) :
    List Value → World → Plan → Prop
  | done {seen world result world'} (hdoes : task.Does session frame world seen result world') :
    Local session task frame seen world (done result world')
  | stuck {seen world} : Local session task frame seen world stuck
  | pass {seen world place name value next} (htask : task.Composite)
    (hframe : frame = some place) (hvalue : value ∈ seen)
    (hnext : Local session task frame seen
      { world with memory := world.memory.bind place name value } next) :
    Local session task frame seen world (pass world next)
  | call {seen world part next} (hpart : task.Part frame world seen part)
    (hrounds : part.isRounds = false)
    (habrupt : ∀ value world', value.isAbrupt = true →
      next (.one value) world' = task.onAbrupt part value world')
    (hnext : ∀ result world', part.Proper result → result.isAbrupt = false →
      Local session task frame (result.values ++ seen) world' (next result world')) :
    Local session task frame seen world (call session part world next)
  | relay {seen world session' part world'} (hrelays : task.Relays part)
    (hhands : task.Hands session frame world seen session' part world') :
    Local session task frame seen world (call session' part world' done)

section

variable {session session' : Session} {task part : Task} {frame : Option FrameRef}
  {seen : List Value} {memory : Memory} {world world' : World} {result : Result}

/-! ## What follows from the form of a task -/

theorem Task.given_subset_values (task : Task) : ∀ value ∈ task.given, value ∈ task.values := by
  cases task with
  | apply callee args => exact fun value hvalue => List.mem_cons_of_mem _ hvalue
  | _ => exact fun _ => id

namespace Task.Relays

theorem proper (hrelays : task.Relays part) (hproper : part.Proper result) :
    task.Proper result := by
  cases hrelays with
  | _ =>
      cases result with
      | one => trivial
      | many => exact hproper

theorem isLoop (hrelays : task.Relays part) (hpart : part.isRounds = true) :
    task.isLoop = true := by
  cases hrelays with
  | loop | round => rfl
  | _ => cases hpart

theorem builds (hrelays : task.Relays part) (hpart : part.isRounds = false) :
    task.builds = false := by
  cases hrelays with
  | loop | round => cases hpart
  | _ => rfl

end Task.Relays

theorem Task.proper_of_builds (htask : task.builds = true) (value : Value) :
    task.Proper (.one value) := by
  cases task with
  | exprs => cases htask
  | _ => trivial

theorem Task.composite_expr {place : FrameRef} {e : Expr} : (Task.expr place e).Composite := by
  rintro builtin args ⟨⟩

theorem Task.composite_of_callee {callee : Value} {args : List Value}
    (hcallee : ∀ builtin, callee ≠ .builtin builtin) : (Task.apply callee args).Composite :=
  fun builtin _ happly => hcallee builtin (Task.apply.inj happly).1

theorem Task.Composite.builds {callee : Value} {args : List Value}
    (htask : (Task.apply callee args).Composite) : (Task.apply callee args).builds = false := by
  cases callee with
  | builtin builtin => exact absurd rfl (htask builtin args)
  | _ => rfl

theorem Task.Does.proper (hdoes : task.Does session frame world seen result world') :
    task.Proper result := by
  cases hdoes with
  | deliver _ _ hproper => exact hproper
  | array _ hbuilds => exact Task.proper_of_builds hbuilds _
  | _ => trivial

theorem Session.Closed.effect {builtin : Builtin} {args : List Value} {value : Value}
    (hsession : session.Closed)
    (hrun : (Eval.settle (builtin.call (fun _ => failure) session.foreign args)).run world =
      some (value, world')) :
    Builtin.Effect world.memory builtin args value world'.memory := by
  rw [hsession] at hrun
  exact Builtin.effect_settle hrun

theorem Task.Part.from {value : Value} (hpart : task.Part frame world seen part)
    (hvalue : value ∈ part.values) : value.From session frame world.memory seen := by
  rcases hpart.values value hvalue with hseen | rfl
  · exact .seen hseen
  · exact .plain trivial

theorem Task.Hands.closed (hhands : task.Hands session frame world seen session' part world')
    (hsession : session.Closed) : session'.Closed := by
  cases hhands with
  | part => exact hsession
  | line => exact hsession.standard

theorem Task.Hands.memory_eq (hhands : task.Hands session frame world seen session' part world') :
    world'.memory = world.memory := by
  cases hhands with
  | part => rfl
  | line _ hread => exact World.memory_of_programLine? hread

theorem Task.proper_of_isAbrupt {value : Value} (habrupt : value.isAbrupt = true) :
    task.Proper (.one value) := by
  cases task with
  | exprs => exact habrupt
  | _ => trivial

theorem Value.from_unwrapReturn {value : Value} (hvalue : value ∈ seen) :
    value.unwrapReturn.From session frame memory seen := by
  cases value with
  | returned carried => exact .carried hvalue
  | _ => exact .seen hvalue

/-! ## What follows from the form of a level -/

namespace Plan.Local

variable {next : Result → World → Plan}

theorem does (hlocal : (Plan.done result world').Local session task frame seen world) :
    task.Does session frame world seen result world' := by
  cases hlocal with
  | done hdoes => exact hdoes

theorem of_pass {plan : Plan}
    (hlocal : (Plan.pass world' plan).Local session task frame seen world) :
    task.Composite ∧ world' = world ∧ ∃ place name value, frame = some place ∧ value ∈ seen ∧
      plan.Local session task frame seen
        { world with memory := world.memory.bind place name value } := by
  cases hlocal with
  | pass htask hframe hvalue hnext => exact ⟨htask, rfl, _, _, _, hframe, hvalue, hnext⟩

theorem onAbrupt {value : Value} (htask : task.Composite) (habrupt : value.isAbrupt = true)
    (hvalue : value ∈ seen) :
    (task.onAbrupt part value world).Local session task frame seen world := by
  unfold Task.onAbrupt
  split
  · refine .done (.array htask rfl fun element helement => ?_)
    cases Array.mem_singleton.mp helement
    exact hvalue
  · exact .done (.deliver htask (Value.from_unwrapReturn hvalue) trivial
      fun hbuilds => absurd hbuilds (ne_true_of_eq_false htask.builds))
  · exact .done (.deliver htask (Value.from_unwrapReturn hvalue) trivial nofun)
  · exact .done (.deliver htask (.seen hvalue) (Task.proper_of_isAbrupt habrupt) fun _ => habrupt)

/-- A task is handed on, and its result is that of the level, or its values are seen from then
on. -/
theorem of_call
    (hlocal : (Plan.call session' part world' next).Local session task frame seen world) :
    task.Hands session frame world seen session' part world' ∧
      (task.Relays part ∧ next = .done ∨
        task.Composite ∧ part.isRounds = false ∧ ∀ result after, part.Proper result →
          (next result after).Local session task frame (result.values ++ seen) after) := by
  cases hlocal with
  | relay hrelays hhands => exact ⟨hhands, .inl ⟨hrelays, rfl⟩⟩
  | call hpart hrounds habrupt hnext =>
      refine ⟨.part hpart, .inr ⟨hpart.composite, hrounds, fun result after hproper => ?_⟩⟩
      by_cases hresult : result.isAbrupt = true
      · cases result with
        | many => cases hresult
        | one value =>
            rw [habrupt value after hresult]
            exact onAbrupt hpart.composite hresult List.mem_cons_self
      · exact hnext result after hproper (Bool.eq_false_iff.mpr hresult)

end Plan.Local

/-! ## Levels of every form -/

theorem local_expr {place : FrameRef} {e : Expr} {value : Value}
    (hbuilds : (Task.expr place e).builds = false)
    (hvalue : value.From session frame world.memory seen) :
    (Plan.done (.one value) world).Local session (.expr place e) frame seen world :=
  .done (.deliver Task.composite_expr hvalue trivial
    fun h => absurd h (ne_true_of_eq_false hbuilds))

theorem local_apply {callee value : Value} {args : List Value}
    (htask : (Task.apply callee args).Composite)
    (hvalue : value.From session frame world.memory seen) :
    (Plan.done (.one value) world).Local session (.apply callee args) frame seen world :=
  .done (.deliver htask hvalue trivial fun h => absurd h (ne_true_of_eq_false htask.builds))

theorem local_newArray {elements : Array Value} (htask : task.Composite)
    (hbuilds : task.builds = true) (hvalues : ∀ value ∈ elements, value ∈ seen) :
    (Plan.newArray elements world).Local session task frame seen world :=
  .done (.array htask hbuilds hvalues)

theorem local_andThen {next : Value → World → Plan} (hpart : task.Part frame world seen part)
    (hrounds : part.isRounds = false)
    (habrupt : ∀ value world', task.onAbrupt part value world' = .done (.one value) world')
    (hnext : ∀ value world', value.isAbrupt = false →
      (next value world').Local session task frame (value :: seen) world') :
    (Plan.call session part world (Plan.andThen next)).Local session task frame seen world := by
  refine .call hpart hrounds (fun value world' hvalue => ?_) fun result world' _ hresult => ?_
  · rw [habrupt, Plan.andThen, if_pos hvalue]
  · cases result with
    | many values => exact .stuck
    | one value =>
        have hvalue : value.isAbrupt = false := hresult
        rw [Plan.andThen, if_neg (ne_true_of_eq_false hvalue)]
        exact hnext value world' hresult

theorem local_withValues {place : FrameRef} {es : List Expr} {next : List Value → World → Plan}
    (hpart : task.Part frame world seen (.exprs place es))
    (habrupt : ∀ value world',
      task.onAbrupt (.exprs place es) value world' = .done (.one value) world')
    (hnext : ∀ values world', (next values world').Local session task frame (values ++ seen)
      world') :
    (Plan.call session (.exprs place es) world (Plan.withValues next)).Local session task frame
      seen world := by
  refine .call hpart rfl (fun value world' _ => (habrupt value world').symm)
    fun result world' hproper hresult => ?_
  cases result with
  | one value => exact absurd hproper (ne_true_of_eq_false hresult)
  | many values => exact hnext values world'

theorem local_relay (hrelays : task.Relays part) (hpart : task.Part frame world seen part) :
    (Plan.call session part world .done).Local session task frame seen world :=
  .relay hrelays (.part hpart)

/-- A body ends with the value of a pending return. -/
theorem local_body {place : FrameRef} {body : Block}
    (hpart : task.Part frame world seen (.block place body .null))
    (hbuilds : task.builds = false)
    (habrupt : ∀ value world',
      task.onAbrupt (.block place body .null) value world' = .done (.one value.unwrapReturn) world')
    (htask : ∀ value : Value, task.Proper (.one value)) :
    (Plan.call session (.block place body .null) world fun result =>
      .done result.unwrapReturn).Local session task frame seen world := by
  refine .call hpart rfl (fun value world' _ => (habrupt value world').symm)
    fun result world' hproper hresult => ?_
  cases result with
  | many values => exact hproper.elim
  | one value =>
      exact .done (.deliver hpart.composite (Value.from_unwrapReturn List.mem_cons_self) (htask _)
        fun h => absurd h (ne_true_of_eq_false hbuilds))

theorem from_ofExcept {result : Except Fault Value}
    (hresult : ∀ value, result = .ok value → value.From session frame memory seen) :
    (Value.ofExcept result).From session frame memory seen := by
  cases result with
  | ok value => exact hresult value rfl
  | error fault => exact .plain trivial

theorem from_resolve (place : FrameRef) (name : String) :
    (session.resolve place name memory).From session (some place) memory seen := by
  unfold Session.resolve
  split
  next hlookup => exact .bound rfl hlookup
  next =>
    split
    next hget => exact .builtin hget
    next => exact .plain trivial

/-- An expression right below another one is a part of it. -/
theorem part_expr {place : FrameRef} {e operand : Expr} (hmem : operand ∈ e.children) :
    (Task.expr place e).Part (some place) world seen (.expr place operand) where
  composite := Task.composite_expr
  frame := .inr rfl
  values := List.forall_mem_nil _
  code _ he := Dialect.expr_of_expr _ he hmem

theorem part_exprs {place : FrameRef} {e : Expr} {es : List Expr}
    (hmem : ∀ operand ∈ es, operand ∈ e.children) :
    (Task.expr place e).Part (some place) world seen (.exprs place es) where
  composite := Task.composite_expr
  frame := .inr rfl
  values := List.forall_mem_nil _
  code _ he operand hoperand := Dialect.expr_of_expr _ he (hmem operand hoperand)

/-- The task hands on a block in its own frame. -/
theorem part_block {place : FrameRef} {body : Block} {value : Value}
    (htask : task.Composite) (hframe : frame = some place) (hvalue : value ∈ seen ∨ value = .null)
    (hcode : ∀ dialect : Dialect, dialect.level world.memory task → dialect.block body) :
    task.Part frame world seen (.block place body value) where
  composite := htask
  frame := .inr hframe.symm
  values v hv := by
    cases List.mem_singleton.mp hv
    exact hvalue
  code := hcode

theorem part_rounds {place : FrameRef} {condition : Expr} {body : Block}
    {collected : Array Value} (htask : task.Composite)
    (hframe : frame = some place) (hvalues : ∀ value ∈ collected, value ∈ seen)
    (hcode : ∀ dialect : Dialect, dialect.level world.memory task →
      dialect.expr (.loop condition body)) :
    task.Part frame world seen (.loop place condition body collected) where
  composite := htask
  frame := .inr hframe.symm
  values value hvalue := .inl (hvalues value (Array.mem_toList_iff.mp hvalue))
  code := hcode

theorem local_planExpr (place : FrameRef) (e : Expr) :
    (session.planExpr place world e).Local session (.expr place e) (some place) [] world := by
  cases e with
  | ident name => exact local_expr rfl (from_resolve place name)
  | int value | float value | bool value | string value => exact local_expr rfl (.plain trivial)
  | array elements =>
      refine local_withValues (part_exprs fun _ => id) (fun _ _ => rfl) fun values world' => ?_
      refine local_newArray Task.composite_expr rfl fun value hvalue => ?_
      exact List.mem_append_left _ (List.mem_toArray.mp hvalue)
  | unary op operand =>
      refine local_andThen (part_expr (by simp [Expr.children])) rfl (fun _ _ => rfl)
        fun a world' _ => ?_
      exact local_expr rfl (.plain (Value.isPlain_ofExcept fun _ => UnaryOp.isPlain_of_apply))
  | binary op left right =>
      refine local_andThen (part_expr (by simp [Expr.children])) rfl (fun _ _ => rfl)
        fun a world' _ => ?_
      refine local_andThen (part_expr (by simp [Expr.children])) rfl (fun _ _ => rfl)
        fun b world'' _ => ?_
      exact local_expr rfl (.plain (Value.isPlain_ofExcept fun _ => BinaryOp.isPlain_of_apply))
  | index collection index =>
      refine local_andThen (part_expr (by simp [Expr.children])) rfl (fun _ _ => rfl)
        fun a world' _ => ?_
      refine local_andThen (part_expr (by simp [Expr.children])) rfl (fun _ _ => rfl)
        fun b world'' _ => ?_
      refine local_expr rfl (from_ofExcept fun value hindex => ?_)
      obtain ⟨ref, rfl, hvalue⟩ := Memory.mem_elements_of_index hindex
      exact .element (by simp) hvalue
  | conditional condition consequence alternative =>
      refine local_andThen (part_expr (by simp [Expr.children])) rfl (fun _ _ => rfl)
        fun decision world' _ => ?_
      exact local_relay .branch (part_block Task.composite_expr rfl (.inr rfl) fun _ he =>
        Dialect.block_branch he decision.isTruthy)
  | loop condition body =>
      refine local_relay .loop (part_rounds Task.composite_expr rfl (fun _ h => ?_)
        fun _ => id)
      exact absurd h (Array.not_mem_empty _)
  | function params body => exact .done .function
  | call callee args =>
      refine local_andThen (part_expr (by simp [Expr.children])) rfl (fun _ _ => rfl)
        fun f world' _ => ?_
      refine local_withValues (part_exprs fun _ => List.mem_cons_of_mem _) (fun _ _ => rfl)
        fun values world'' => ?_
      refine local_relay .call
        ⟨Task.composite_expr, .inl rfl, fun value hvalue => .inl ?_, fun _ _ => trivial⟩
      rcases List.mem_cons.mp hvalue with rfl | hvalue
      · exact List.mem_append_right _ List.mem_cons_self
      · exact List.mem_append_left _ hvalue

theorem part_stmt {place : FrameRef} {s : Stmt} {e : Expr} (hmem : e ∈ s.children) :
    (Task.stmt place s).Part (some place) world seen (.expr place e) where
  composite := nofun
  frame := .inr rfl
  values := nofun
  code _ hs := Dialect.expr_of_stmt _ hs hmem

theorem local_planStmt (place : FrameRef) (s : Stmt) :
    (session.planStmt place world s).Local session (.stmt place s) (some place) [] world := by
  cases s with
  | bind name value =>
      refine local_andThen (part_stmt (by simp [Stmt.children])) rfl (fun _ _ => rfl)
        fun v world' _ => ?_
      exact .done (.bind List.mem_cons_self)
  | ret value =>
      refine local_andThen (part_stmt (by simp [Stmt.children])) rfl (fun _ _ => rfl)
        fun v world' _ => ?_
      exact .done (.ret List.mem_cons_self)
  | expr value => exact local_relay .expr (part_stmt (by simp [Stmt.children]))
  | block body =>
      exact local_relay .stmts (part_block nofun rfl (.inr rfl) fun _ hs _ =>
        Dialect.stmt_of_stmt _ hs)

theorem local_loop (place : FrameRef) (condition : Expr) (body : Block)
    (collected : Array Value) :
    (session.plan world (.loop place condition body collected)).Local session
      (.loop place condition body collected) (some place) collected.toList world := by
  have hcondition (world : World) : (Task.loop place condition body collected).Part (some place)
      world collected.toList (.expr place condition) :=
    ⟨nofun, .inr rfl, nofun, fun _ he => Dialect.expr_of_expr _ he (by simp [Expr.children])⟩
  refine local_andThen (hcondition world) rfl (fun _ _ => rfl) fun decision world' _ => ?_
  have hcollected {value : Value} (hvalue : value ∈ collected) : value ∈ collected.toList :=
    Array.mem_toList_iff.mpr hvalue
  by_cases htrue : decision.isTruthy
  · rw [if_pos htrue]
    have hbody : (Task.loop place condition body collected).Part (some place) world'
        (decision :: collected.toList) (.block place body .null) :=
      part_block nofun rfl (.inr rfl) fun _ he _ => Dialect.stmt_of_expr _ he
    refine .call hbody rfl (fun value world'' hvalue => ?_) fun result world'' hproper hresult => ?_
    · cases value with
      | error | returned => rfl
      | _ => cases hvalue
    · cases result with
      | many values => exact hproper.elim
      | one value =>
          have hround : (Plan.call session (.loop place condition body (collected.push value))
              world'' .done).Local session (.loop place condition body collected) (some place)
                (value :: decision :: collected.toList) world'' := by
            refine local_relay .round (part_rounds nofun rfl (fun element helement => ?_)
              fun _ => id)
            rcases Array.mem_push.mp helement with hmem | rfl
            · exact List.mem_cons_of_mem _ (List.mem_cons_of_mem _ (hcollected hmem))
            · exact List.mem_cons_self
          cases value with
          | error | returned => cases hresult
          | _ => exact hround
  · rw [if_neg htrue]
    exact local_newArray nofun rfl fun value hvalue => List.mem_cons_of_mem _ (hcollected hvalue)

theorem local_exprs (place : FrameRef) (es : List Expr) :
    (session.plan world (.exprs place es)).Local session (.exprs place es) (some place) []
      world := by
  cases es with
  | nil => exact .done (.many nofun)
  | cons first rest =>
      have hfirst : (Task.exprs place (first :: rest)).Part (some place) world []
          (.expr place first) :=
        ⟨nofun, .inr rfl, nofun, fun _ hall => hall first List.mem_cons_self⟩
      refine local_andThen hfirst rfl (fun _ _ => rfl) fun value world' _ => ?_
      have hrest : (Task.exprs place (first :: rest)).Part (some place) world' [value]
          (.exprs place rest) :=
        ⟨nofun, .inr rfl, nofun, fun _ hall e he => hall e (List.mem_cons_of_mem _ he)⟩
      refine local_withValues hrest (fun _ _ => rfl) fun values world'' => ?_
      refine .done (.many fun v hv => ?_)
      simpa [or_comm] using hv

theorem local_block (place : FrameRef) (body : Block) (value : Value) :
    (session.plan world (.block place body value)).Local session (.block place body value)
      (some place) [value] world := by
  cases body with
  | nil => exact .done (.deliver nofun (.seen List.mem_cons_self) trivial nofun)
  | cons first rest =>
      have hfirst : (Task.block place (first :: rest) value).Part (some place) world [value]
          (.stmt place first) :=
        ⟨nofun, .inr rfl, nofun, fun _ hall => hall first List.mem_cons_self⟩
      refine local_andThen hfirst rfl (fun _ _ => rfl) fun v world' _ => ?_
      exact local_relay .rest (part_block nofun rfl (.inl List.mem_cons_self)
        fun _ hall s hs => hall s (List.mem_cons_of_mem _ hs))

theorem local_planBuiltin (builtin : Builtin) (args : List Value) :
    (session.planBuiltin world builtin args).Local session (.apply (.builtin builtin) args) none
      args world := by
  have hanswer : (Plan.ofAnswer ((Eval.settle
      (builtin.call (fun _ => failure) session.foreign args)).run world)).Local session
        (.apply (.builtin builtin) args) none args world := by
    cases hrun : (Eval.settle (builtin.call (fun _ => failure) session.foreign args)).run world with
    | none => exact .stuck
    | some reply => exact .done (.builtin hrun)
  unfold Session.planBuiltin
  by_cases hget : builtin = .get ∧ args = []
  · simp only [hget, and_self, if_true]
    obtain ⟨rfl, rfl⟩ := hget
    split
    next p started hread => exact .relay .line (.line rfl hread)
    next => exact hanswer
  · simp only [hget, if_false]
    exact hanswer

/-- The arguments of a call are bound in the new frame. -/
theorem local_binding {place : FrameRef} {next : World → Plan} {entries : List (String × Value)}
    (htask : task.Composite) (hframe : frame = some place)
    (hentries : ∀ entry ∈ entries, entry.2 ∈ seen)
    (hnext : ∀ world', world'.memory.functions = world.memory.functions →
      (next world').Local session task frame seen world') :
    (Plan.binding place next entries world).Local session task frame seen world := by
  induction entries generalizing world with
  | nil => exact hnext world rfl
  | cons entry rest ih =>
      obtain ⟨hentry, hrest⟩ := List.forall_mem_cons.mp hentries
      exact .pass htask hframe hentry (ih hrest fun world' hfunctions => hnext world' hfunctions)

theorem local_planApply (callee : Value) (args : List Value) :
    ∃ frame entered, (Task.apply callee args).Enters world frame entered ∧
      (session.planApply world callee args).Local session (.apply callee args) frame args
        entered := by
  cases callee with
  | function ref =>
      have htask : (Task.apply (.function ref) args).Composite := Task.composite_of_callee (by simp)
      rw [Session.planApply]
      cases hfunction : world.memory.function? ref with
      | none => exact ⟨_, _, .stay, .stuck⟩
      | some function =>
          by_cases harity : function.params.length = args.length
          · simp only [harity, if_true]
            refine ⟨_, _, .call hfunction, local_binding htask rfl ?_ fun world' hfunctions => ?_⟩
            · exact fun entry hentry => (List.of_mem_zip hentry).2
            · refine local_body (part_block htask rfl (.inr rfl) fun dialect hcode s hs => ?_) rfl
                (fun _ _ => rfl) fun _ => trivial
              have hsame : world'.memory.function? ref = some function := by
                rw [Memory.function?, hfunctions]
                exact hfunction
              exact dialect.stmt_of_expr (hcode function hsame) hs
          · simp only [harity, if_false]
            exact ⟨_, _, .stay, local_apply htask (.plain trivial)⟩
  | builtin builtin => exact ⟨_, _, .stay, local_planBuiltin builtin args⟩
  | _ =>
      exact ⟨_, _, .stay, local_apply (Task.composite_of_callee (by simp)) (.plain trivial)⟩

/-- What happens at the level of a task, whatever the task is. -/
theorem Session.plan_local (session : Session) (task : Task) (world : World) :
    ∃ frame entered, task.Enters world frame entered ∧
      (session.plan world task).Local session task frame task.given entered := by
  cases task with
  | expr place e => exact ⟨_, _, .stay, local_planExpr place e⟩
  | exprs place es => exact ⟨_, _, .stay, local_exprs place es⟩
  | loop place condition body collected =>
      exact ⟨_, _, .stay, local_loop place condition body collected⟩
  | stmt place s => exact ⟨_, _, .stay, local_planStmt place s⟩
  | block place body value => exact ⟨_, _, .stay, local_block place body value⟩
  | apply callee args => exact local_planApply callee args
  | program place p =>
      refine ⟨_, _, .stay, local_body (part_block nofun rfl (.inr rfl) fun _ => id) rfl
        (fun _ _ => rfl) fun _ => trivial⟩

/-! ## Results of tasks -/

/-- Several values are only ever the result of a list of expressions. -/
theorem Plan.Local.proper {plan : Plan} (hlocal : plan.Local session task frame seen world)
    (hends : plan.Ends result world') : task.Proper result := by
  induction hends generalizing session task frame seen world with
  | done => exact hlocal.does.proper
  | pass _ ih =>
      obtain ⟨-, -, place, name, value, -, -, hnext⟩ := hlocal.of_pass
      exact ih hnext
  | @call session' part start next result world' _ _ _ hends ihtask ihnext =>
      obtain ⟨place, entered, -, hpart⟩ := session'.plan_local part start
      have hproper := ihtask hpart
      obtain ⟨-, ⟨hrelays, rfl⟩ | ⟨-, -, hafter⟩⟩ := hlocal.of_call
      · cases hends
        exact hrelays.proper hproper
      · exact ihnext (hafter result world' hproper)

theorem Task.proper_of_ends (hends : (session.plan world task).Ends result world') :
    task.Proper result := by
  obtain ⟨frame, entered, -, hlocal⟩ := session.plan_local task world
  exact hlocal.proper hends

end

end Monkey
