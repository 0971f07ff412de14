import Monkey.Proofs.Evaluation.Signals
import Monkey.Proofs.Evaluation.WellFormed

/-! # Answers of the evaluator are computed with signals

A value of the evaluator stands for an outcome: an error and a pending return stand for signals, all
other values for themselves. On well-formed memory the outcome that an answer stands for is computed
with signals. That is shown of each plan, given the same of the tasks that it hands on.
-/

namespace Monkey

/-- The outcome that a value of the evaluator stands for. -/
def Value.outcome : Value → Outcome
  | .returned value => .signal (.ret value)
  | .error message => .signal (.err message)
  | value => .value value

def Result.outcome : Result → Outcome
  | one value => value.outcome
  | many values => .values values

namespace Value

variable {value : Value}

theorem outcome_of_isAbrupt (hvalue : value.isAbrupt = false) : value.outcome = .value value := by
  cases value with
  | returned carried => cases hvalue
  | error message => cases hvalue
  | _ => rfl

theorem exists_outcome_of_isAbrupt (hvalue : value.isAbrupt = true) :
    ∃ signal, value.outcome = .signal signal := by
  cases value with
  | returned carried => exact ⟨.ret carried, rfl⟩
  | error message => exact ⟨.err message, rfl⟩
  | _ => cases hvalue

theorem outcome_eq_ofData (hvalue : value.kind ≠ .returned) : value.outcome = .ofData value := by
  cases value with
  | returned carried => exact absurd rfl hvalue
  | _ => rfl

theorem outcome_unwrapReturn (hvalue : value.Unnested) :
    value.unwrapReturn.outcome = value.outcome.delivered := by
  cases value with
  | returned carried => exact outcome_of_isAbrupt (hvalue carried rfl)
  | _ => rfl

end Value

/-- The results of a task are computed. -/
def Computed (session : Session) (task : Task) (world : World) (result : Result) (world' : World) :
    Prop :=
  Computes session task world result.outcome world'

section

variable {session session' : Session} {task : Task} {part : Task} {world start : World}

theorem yields_andThen {next : Value → World → Plan}
    (hraise : ∀ signal world', Computes session part start (.signal signal) world' →
      Computes session' task world (.signal signal) world')
    (hnext : ∀ value world', world'.memory.WellFormed → value.isAbrupt = false →
      Computes session part start (.value value) world' →
      (next value world').Yields (discipline.Also Computed) (Computed session' task world)) :
    (Plan.call session part start (Plan.andThen next)).Yields (discipline.Also Computed)
      (Computed session' task world) := by
  rintro (value | values) world' ⟨⟨hvalue, hmemory⟩, hcomputed⟩
  · unfold Plan.andThen
    by_cases habrupt : value.isAbrupt
    · simp only [habrupt, if_true]
      obtain ⟨signal, hsignal⟩ := Value.exists_outcome_of_isAbrupt habrupt
      change Computes session part start value.outcome world' at hcomputed
      change Computes session' task world value.outcome world'
      rw [hsignal] at hcomputed ⊢
      exact hraise signal world' hcomputed
    · simp only [habrupt, Bool.false_eq_true, if_false]
      have hordinary := Bool.eq_false_iff.mpr habrupt
      change Computes session part start value.outcome world' at hcomputed
      rw [Value.outcome_of_isAbrupt hordinary] at hcomputed
      exact hnext value world' hmemory hordinary hcomputed
  · trivial

theorem yields_withValues {frame : FrameRef} {es : List Expr} {next : List Value → World → Plan}
    (hraise : ∀ signal world', Computes session (.exprs frame es) start (.signal signal) world' →
      Computes session' task world (.signal signal) world')
    (hnext : ∀ values world', world'.memory.WellFormed →
      Computes session (.exprs frame es) start (.values values) world' →
      (next values world').Yields (discipline.Also Computed) (Computed session' task world)) :
    (Plan.call session (.exprs frame es) start (Plan.withValues next)).Yields
      (discipline.Also Computed) (Computed session' task world) := by
  rintro (value | values) world' ⟨⟨hvalue, hmemory⟩, hcomputed⟩
  · obtain ⟨signal, hsignal⟩ := Value.exists_outcome_of_isAbrupt hvalue.1
    change Computes session (.exprs frame es) start value.outcome world' at hcomputed
    change Computes session' task world value.outcome world'
    rw [hsignal] at hcomputed ⊢
    exact hraise signal world' hcomputed
  · exact hnext values world' hmemory hcomputed

theorem yields_done {value : Value} {outcome : Outcome} {world' : World}
    (hcomputes : Computes session' task world outcome world')
    (houtcome : value.outcome = outcome) :
    (Plan.done (.one value) world').Yields (discipline.Also Computed)
      (Computed session' task world) := by
  change Computes session' task world value.outcome world'
  rw [houtcome]
  exact hcomputes

/-- A task whose outcome is that of another. -/
theorem yields_call_done
    (hcomputes : ∀ outcome world', Computes session part start outcome world' →
      Computes session' task world outcome world') :
    (Plan.call session part start .done).Yields (discipline.Also Computed)
      (Computed session' task world) := by
  rintro result world' ⟨-, hcomputed⟩
  exact hcomputes _ world' hcomputed

theorem yields_unwrapReturn {frame : FrameRef} {body : Block}
    (hcomputes : ∀ outcome world', Computes session (.block frame body .null) start outcome world' →
      Computes session' task world outcome.delivered world') :
    (Plan.call session (.block frame body .null) start fun result =>
      .done result.unwrapReturn).Yields (discipline.Also Computed)
      (Computed session' task world) := by
  rintro (value | values) world' ⟨⟨hvalue, -⟩, hcomputed⟩
  · exact yields_done (hcomputes _ world' hcomputed) (Value.outcome_unwrapReturn hvalue)
  · exact absurd hvalue id

theorem yields_newArray {elements : Array Value}
    (hcomputes : ∀ ref memory, start.memory.newArray elements = (ref, memory) →
      Computes session' task world (.value (.array ref)) { start with memory }) :
    (Plan.newArray elements start).Yields (discipline.Also Computed)
      (Computed session' task world) :=
  hcomputes _ _ rfl

theorem computes_ident (hmemory : world.memory.WellFormed) (frame : FrameRef) (name : String) :
    Computes session (.expr frame (.ident name)) world
      (session.resolve frame name world.memory).outcome world := by
  unfold Session.resolve
  cases hlookup : world.memory.lookup? frame name with
  | some value =>
      rw [Value.outcome_of_isAbrupt (hmemory.isAbrupt_of_lookupWithin hlookup)]
      exact .bound hlookup
  | none =>
      cases hget : session.registry.get? name with
      | some builtin => exact .builtin hlookup hget
      | none => exact .unbound hlookup hget

theorem yields_planExpr (hmemory : world.memory.WellFormed) (frame : FrameRef) (e : Expr) :
    (session.planExpr frame world e).Yields (discipline.Also Computed)
      (Computed session (.expr frame e) world) := by
  cases e with
  | ident name => exact yields_done (computes_ident hmemory frame name) rfl
  | int value => exact yields_done .int rfl
  | float value => exact yields_done .float rfl
  | bool value => exact yields_done .bool rfl
  | string value => exact yields_done .string rfl
  | array elements =>
      apply yields_withValues fun _ _ hraise => .part hraise
      intro values world' _ hparts
      exact yields_newArray fun _ _ => .array hparts
  | unary op operand =>
      apply yields_andThen fun _ _ hraise => .part (.first hraise)
      intro a world' hmemory' _ ha
      exact yields_done (.unary (.more ha .none)) (Value.outcome_eq_ofData
        (Value.ofExcept_kind_ne_returned fun _ => UnaryOp.apply_kind))
  | binary op left right =>
      apply yields_andThen fun _ _ hraise => .part (.first hraise)
      intro a world' _ _ ha
      apply yields_andThen fun _ _ hraise => .part (.rest ha (.first hraise))
      intro b world'' _ _ hb
      exact yields_done (.binary (.more ha (.more hb .none))) (Value.outcome_eq_ofData
        (Value.ofExcept_kind_ne_returned fun _ => BinaryOp.apply_kind))
  | index collection index =>
      apply yields_andThen fun _ _ hraise => .part (.first hraise)
      intro a world' _ _ ha
      apply yields_andThen fun _ _ hraise => .part (.rest ha (.first hraise))
      intro b world'' hmemory'' _ hb
      exact yields_done (.index (.more ha (.more hb .none))) (Value.outcome_eq_ofData
        (Value.ofExcept_kind_ne_returned fun _ => hmemory''.kind_of_index))
  | conditional condition consequence alternative =>
      apply yields_andThen fun _ _ hraise => .part (.first hraise)
      intro decision world' _ _ hdecision
      exact yields_call_done fun _ _ => .conditional (.more hdecision .none)
  | loop condition body => exact yields_call_done fun _ _ => .loop
  | function params body => exact yields_done (.function rfl) rfl
  | call callee args =>
      apply yields_andThen fun _ _ hraise => .part (.first hraise)
      intro f world' _ _ hf
      apply yields_withValues fun _ _ hraise => .part (.rest hf hraise)
      intro values world'' _ hvalues
      exact yields_call_done fun _ _ => .call (.more hf hvalues)

theorem yields_planStmt (frame : FrameRef) (s : Stmt) :
    (session.planStmt frame world s).Yields (discipline.Also Computed)
      (Computed session (.stmt frame s) world) := by
  cases s with
  | bind name value =>
      apply yields_andThen fun _ _ hraise => .stmtPart (.first hraise)
      intro v world' _ _ hv
      exact yields_done (.bind (.more hv .none)) rfl
  | ret value =>
      apply yields_andThen fun _ _ hraise => .stmtPart (.first hraise)
      intro v world' _ _ hv
      exact yields_done (.ret (.more hv .none)) rfl
  | expr value => exact yields_call_done fun _ _ => .expr
  | block body => exact yields_call_done fun _ _ => .block

theorem yields_loop (frame : FrameRef) (condition : Expr) (body : Block) (collected : Array Value) :
    (session.plan world (.loop frame condition body collected)).Yields (discipline.Also Computed)
      (Computed session (.loop frame condition body collected) world) := by
  apply yields_andThen fun _ _ hraise => .condition hraise
  intro decision world' _ _ hdecision
  by_cases htrue : decision.isTruthy
  · simp only [htrue, if_true]
    rintro (value | values) world'' ⟨-, hbody⟩
    · cases value with
      | error message => exact yields_newArray fun _ _ => .caught hdecision htrue hbody
      | returned value => exact yields_done (.escape hdecision htrue hbody) rfl
      | _ => exact yields_call_done fun _ _ => .round hdecision htrue hbody
    · trivial
  · simp only [htrue, Bool.false_eq_true, if_false]
    exact yields_newArray fun _ _ => .exit hdecision (Bool.eq_false_iff.mpr htrue)

theorem yields_planBuiltin (hsession : session.Closed) (hmemory : world.memory.WellFormed)
    (builtin : Builtin) {args : List Value} (hargs : ∀ arg ∈ args, arg.isAbrupt = false) :
    (session.planBuiltin world builtin args).Yields (discipline.Also Computed)
      (Computed session (.apply (.builtin builtin) args) world) := by
  have hanswer : (Plan.ofAnswer ((Eval.settle
      (builtin.call (fun _ => failure) session.foreign args)).run world)).Yields
        (discipline.Also Computed) (Computed session (.apply (.builtin builtin) args) world) := by
    cases hrun : (Eval.settle (builtin.call (fun _ => failure) session.foreign args)).run world with
    | none => trivial
    | some reply =>
        obtain ⟨hkind, -⟩ := hsession.step hargs hmemory hrun
        exact yields_done (.step hrun) (Value.outcome_eq_ofData hkind)
  unfold Session.planBuiltin
  by_cases hget : builtin = .get ∧ args = []
  · obtain ⟨rfl, rfl⟩ := hget
    simp only [and_self, if_true]
    split
    next p world' hline => exact yields_call_done fun _ _ => .line hline
    next => exact hanswer
  · simp only [hget, if_false]
    exact hanswer

theorem yields_binding {frame : FrameRef} {next : World → Plan} (entries : List (String × Value))
    {ensures : Session → Task → World → Result → World → Prop} {goal : Result → World → Prop}
    (hnext : (next { start with memory := start.memory.bindAll frame entries }).Yields ensures
      goal) :
    (Plan.binding frame next entries start).Yields ensures goal := by
  induction entries generalizing start with
  | nil => exact hnext
  | cons entry rest ih => exact ih hnext

theorem yields_planApply (hsession : session.Closed) (hmemory : world.memory.WellFormed)
    (callee : Value) {args : List Value} (hargs : ∀ arg ∈ args, arg.isAbrupt = false) :
    (session.planApply world callee args).Yields (discipline.Also Computed)
      (Computed session (.apply callee args) world) := by
  cases callee with
  | function ref =>
      rw [Session.planApply]
      cases hfunction : world.memory.function? ref with
      | none => trivial
      | some function =>
          by_cases harity : function.params.length = args.length
          · simp only [harity, if_true]
            apply yields_binding
            exact yields_unwrapReturn fun _ _ => .body hfunction harity rfl
          · simp only [harity, if_false]
            exact yields_done (.arity hfunction harity) rfl
  | builtin builtin => exact yields_planBuiltin hsession hmemory builtin hargs
  | _ => exact yields_done (.notFunction (by simp) (by simp)) rfl

end

/-- Whatever the evaluator delivers from well-formed memory is computed with signals. -/
theorem discipline_extends_computed : discipline.Extends Computed := by
  rintro session task world ⟨hsession, htask, hmemory⟩
  cases task with
  | expr frame e => exact yields_planExpr hmemory frame e
  | exprs frame es =>
      cases es with
      | nil => exact .none
      | cons first rest =>
          apply yields_andThen fun _ _ hraise => .first hraise
          intro value world' _ _ hvalue
          apply yields_withValues fun _ _ hraise => .rest hvalue hraise
          intro values world'' _ hvalues
          exact .more hvalue hvalues
  | loop frame condition body collected => exact yields_loop frame condition body collected
  | stmt frame s => exact yields_planStmt frame s
  | block frame body value =>
      cases body with
      | nil => exact yields_done .last (Value.outcome_of_isAbrupt htask)
      | cons first rest =>
          apply yields_andThen fun _ _ hraise => .stop hraise
          intro value world' _ _ hvalue
          exact yields_call_done fun _ _ => .next hvalue
  | apply callee args => exact yields_planApply hsession hmemory callee htask
  | program frame p => exact yields_unwrapReturn fun _ _ => .program

end Monkey
