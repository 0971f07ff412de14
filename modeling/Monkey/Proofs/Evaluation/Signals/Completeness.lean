import Monkey.Proofs.Evaluation.Signals.Soundness

/-! # What is computed with signals is answered by the evaluator

The outcomes that stand for answers of the evaluator are closed under the rules for signals. A rule
about the parts of an expression speaks of them together, the evaluator of one after the other; the
lemmas about plans come first and lead from one to the other.
-/

namespace Monkey

namespace Plan

variable {session : Session} {task : Task} {frame : FrameRef} {world world' world'' : World}
  {value : Value} {result : Result}

theorem ends_andThen_of_abrupt {next : Value → World → Plan} (hvalue : value.isAbrupt = true)
    (htask : (session.plan world task).Ends (.one value) world') :
    (call session task world (andThen next)).Ends (.one value) world' := by
  refine .call htask ?_
  rw [andThen, if_pos hvalue]
  exact .done

theorem ends_andThen {next : Value → World → Plan} (hvalue : value.isAbrupt = false)
    (htask : (session.plan world task).Ends (.one value) world')
    (hnext : (next value world').Ends result world'') :
    (call session task world (andThen next)).Ends result world'' := by
  refine .call htask ?_
  rw [andThen, if_neg (Bool.eq_false_iff.mp hvalue)]
  exact hnext

theorem ends_exprs_cons {first : Expr} {rest : List Expr}
    (hends : (session.plan world (.exprs frame (first :: rest))).Ends result world'') :
    (∃ value, value.isAbrupt = true ∧ result = .one value ∧
      (session.plan world (.expr frame first)).Ends (.one value) world'') ∨
    ∃ value world', value.isAbrupt = false ∧
      (session.plan world (.expr frame first)).Ends (.one value) world' ∧
      ((∃ abrupt, result = .one abrupt ∧
        (session.plan world' (.exprs frame rest)).Ends (.one abrupt) world'') ∨
      ∃ values, result = .many (value :: values) ∧
        (session.plan world' (.exprs frame rest)).Ends (.many values) world'') := by
  cases hends with
  | @call _ _ _ _ first' world' _ _ hfirst hnext =>
      cases first' with
      | many values => cases hnext
      | one value =>
          by_cases hvalue : value.isAbrupt
          · rw [andThen, if_pos hvalue] at hnext
            cases hnext
            exact .inl ⟨value, hvalue, rfl, hfirst⟩
          · rw [andThen, if_neg hvalue] at hnext
            refine .inr ⟨value, world', Bool.eq_false_iff.mpr hvalue, hfirst, ?_⟩
            cases hnext with
            | @call _ _ _ _ rest' _ _ _ hrest hnext =>
                cases rest' with
                | one abrupt =>
                    cases hnext
                    exact .inl ⟨abrupt, rfl, hrest⟩
                | many values =>
                    cases hnext
                    exact .inr ⟨values, rfl, hrest⟩

theorem ends_first {first : Expr} {rest : List Expr} {values : List Value}
    {next : Value → World → Plan}
    (hparts : (session.plan world (.exprs frame (first :: rest))).Ends (.many (value :: values))
      world')
    (hnext : ∀ middle, (session.plan middle (.exprs frame rest)).Ends (.many values) world' →
      (next value middle).Ends result world'') :
    (call session (.expr frame first) world (andThen next)).Ends result world'' := by
  rcases ends_exprs_cons hparts with ⟨_, _, hresult, _⟩ |
    ⟨value, middle, hvalue, hfirst, ⟨_, hresult, _⟩ | ⟨values, hresult, hrest⟩⟩
  · cases hresult
  · cases hresult
  · cases hresult
    exact ends_andThen hvalue hfirst (hnext middle hrest)

theorem ends_only {e : Expr} {next : Value → World → Plan}
    (hparts : (session.plan world (.exprs frame [e])).Ends (.many [value]) world')
    (hnext : (next value world').Ends result world'') :
    (call session (.expr frame e) world (andThen next)).Ends result world'' := by
  apply ends_first hparts
  rintro _ ⟨⟩
  exact hnext

theorem ends_first_of_abrupt {first : Expr} {rest : List Expr} {next : Value → World → Plan}
    (hparts : (session.plan world (.exprs frame (first :: rest))).Ends (.one value) world')
    (hnext : ∀ before middle, (session.plan middle (.exprs frame rest)).Ends (.one value) world' →
      (next before middle).Ends (.one value) world') :
    (call session (.expr frame first) world (andThen next)).Ends (.one value) world' := by
  rcases ends_exprs_cons hparts with ⟨abrupt, habrupt, hresult, hfirst⟩ |
    ⟨before, middle, hbefore, hfirst, ⟨abrupt, hresult, hrest⟩ | ⟨_, hresult, _⟩⟩
  · cases hresult
    exact ends_andThen_of_abrupt habrupt hfirst
  · cases hresult
    exact ends_andThen hbefore hfirst (hnext before middle hrest)
  · cases hresult

/-- The first abrupt value among the parts of an expression is the value of the expression. -/
theorem ends_planExpr_of_abrupt {e : Expr}
    (hparts : (session.plan world (.exprs frame e.parts)).Ends (.one value) world') :
    (session.planExpr frame world e).Ends (.one value) world' := by
  cases e with
  | array elements => exact .call hparts .done
  | unary op operand => exact ends_first_of_abrupt hparts nofun
  | binary op left right =>
      exact ends_first_of_abrupt hparts fun _ _ hrest => ends_first_of_abrupt hrest nofun
  | index collection index =>
      exact ends_first_of_abrupt hparts fun _ _ hrest => ends_first_of_abrupt hrest nofun
  | conditional condition consequence alternative => exact ends_first_of_abrupt hparts nofun
  | call callee args => exact ends_first_of_abrupt hparts fun _ _ hargs => .call hargs .done
  | _ => cases hparts

theorem ends_planStmt_of_abrupt {s : Stmt}
    (hparts : (session.plan world (.exprs frame s.parts)).Ends (.one value) world') :
    (session.planStmt frame world s).Ends (.one value) world' := by
  cases s with
  | bind name e => exact ends_first_of_abrupt hparts nofun
  | ret e => exact ends_first_of_abrupt hparts nofun
  | _ => cases hparts

theorem planRound_of_isAbrupt {condition : Expr} {body : Block} {collected : Array Value}
    (hvalue : value.isAbrupt = false) :
    session.planRound frame condition body collected (.one value) world =
      .call session (.loop frame condition body (collected.push value)) world .done := by
  cases value with
  | error message => cases hvalue
  | returned value => cases hvalue
  | _ => rfl

theorem ends_binding {next : World → Plan} (entries : List (String × Value))
    (hnext : (next { world with memory := world.memory.bindAll frame entries }).Ends result
      world') :
    (binding frame next entries world).Ends result world' := by
  induction entries generalizing world with
  | nil => exact hnext
  | cons entry rest ih => exact .pass (ih hnext)

theorem ends_line {p : Program} (hline : world.programLine? = some (p, world'))
    (hprogram : (call session.standard (.program session.top p) world' .done).Ends result world'') :
    (session.plan world (.apply (.builtin .get) [])).Ends result world'' := by
  change (session.planBuiltin world .get []).Ends result world''
  rw [Session.planBuiltin, if_pos ⟨rfl, rfl⟩, hline]
  exact hprogram

theorem ends_step {builtin : Builtin} {args : List Value}
    (hcall : (Eval.settle (builtin.call (fun _ => failure) session.foreign args)).run world =
      some (value, world')) :
    (session.plan world (.apply (.builtin builtin) args)).Ends (.one value) world' := by
  change (session.planBuiltin world builtin args).Ends (.one value) world'
  have hanswer : (ofAnswer ((Eval.settle
      (builtin.call (fun _ => failure) session.foreign args)).run world)).Ends (.one value)
        world' := by
    rw [hcall]
    exact .done
  rw [Session.planBuiltin]
  by_cases hget : builtin = .get ∧ args = []
  · obtain ⟨rfl, rfl⟩ := hget
    rw [if_pos ⟨rfl, rfl⟩]
    -- The call has an answer without evaluating a line, so there is no line to evaluate.
    cases hline : world.programLine? with
    | none => exact hanswer
    | some line =>
        change (Eval.settle (Builtin.callGet fun _ => failure)).run world = _ at hcall
        rw [Builtin.run_settle_callGet, hline] at hcall
        cases hcall
  · rw [if_neg hget]
    exact hanswer

end Plan

/-- The evaluator delivers a result that stands for the outcome. -/
def Delivered (session : Session) (task : Task) (world : World) (outcome : Outcome)
    (world' : World) : Prop :=
  ∃ result, (session.plan world task).Ends result world' ∧ result.outcome = outcome

namespace Delivered

variable {session session' : Session} {task task' : Task} {frame : FrameRef}
  {world world' world'' world''' start : World} {outcome : Outcome} {signal : Signal}
  {value : Value}

theorem value_ends (h : Delivered session task world (.value value) world') :
    value.isAbrupt = false ∧ (session.plan world task).Ends (.one value) world' := by
  obtain ⟨result, hends, houtcome⟩ := h
  cases result with
  | one value' => cases value' <;> cases houtcome <;> exact ⟨rfl, hends⟩
  | many values => cases houtcome

theorem values_ends {values : List Value}
    (h : Delivered session task world (.values values) world') :
    (session.plan world task).Ends (.many values) world' := by
  obtain ⟨result, hends, houtcome⟩ := h
  cases result with
  | one value => cases value <;> cases houtcome
  | many values' =>
      cases houtcome
      exact hends

theorem exists_signal_ends (h : Delivered session task world (.signal signal) world') :
    ∃ value : Value, value.isAbrupt = true ∧ value.outcome = .signal signal ∧
      (session.plan world task).Ends (.one value) world' := by
  obtain ⟨result, hends, houtcome⟩ := h
  cases result with
  | one value =>
      refine ⟨value, ?_, houtcome, hends⟩
      cases value with
      | returned carried => rfl
      | error message => rfl
      | _ => cases houtcome
  | many values => cases houtcome

theorem of_value (hvalue : value.isAbrupt = false)
    (hends : (session.plan world task).Ends (.one value) world') :
    Delivered session task world (.value value) world' :=
  ⟨.one value, hends, Value.outcome_of_isAbrupt hvalue⟩

theorem of_data (hvalue : value.kind ≠ .returned)
    (hends : (session.plan world task).Ends (.one value) world') :
    Delivered session task world (.ofData value) world' :=
  ⟨.one value, hends, Value.outcome_eq_ofData hvalue⟩

/-- A signal of one task is a signal of another if abrupt values pass. -/
theorem pass (h : Delivered session task world (.signal signal) world')
    (hpass : ∀ value : Value, value.isAbrupt = true →
      (session.plan world task).Ends (.one value) world' →
      (session'.plan start task').Ends (.one value) world') :
    Delivered session' task' start (.signal signal) world' := by
  obtain ⟨value, hvalue, houtcome, hends⟩ := h.exists_signal_ends
  exact ⟨.one value, hpass value hvalue hends, houtcome⟩

/-- The last task of a plan decides about its outcome. -/
theorem forward (h : Delivered session task world outcome world')
    (hforward : ∀ result, (Plan.call session task world .done).Ends result world' →
      (session'.plan start task').Ends result world') :
    Delivered session' task' start outcome world' := by
  obtain ⟨result, hends, houtcome⟩ := h
  exact ⟨result, hforward result (.call hends .done), houtcome⟩

/-! ### The rules -/

theorem ident {name : String} (hresolve : session.resolve frame name world.memory = value)
    (houtcome : value.outcome = outcome) :
    Delivered session (.expr frame (.ident name)) world outcome world := by
  subst hresolve
  exact ⟨.one _, .done, houtcome⟩

theorem unary {op : UnaryOp} {e : Expr} {a : Value}
    (hparts : Delivered session (.exprs frame [e]) world (.values [a]) world') :
    Delivered session (.expr frame (.unary op e)) world (.ofData (.ofExcept (op.apply a)))
      world' := by
  refine of_data (Value.ofExcept_kind_ne_returned fun _ => UnaryOp.apply_kind) ?_
  exact Plan.ends_only hparts.values_ends .done

theorem binary {op : BinaryOp} {left right : Expr} {a b : Value}
    (hparts : Delivered session (.exprs frame [left, right]) world (.values [a, b]) world') :
    Delivered session (.expr frame (.binary op left right)) world
      (.ofData (.ofExcept (op.apply a b))) world' := by
  refine of_data (Value.ofExcept_kind_ne_returned fun _ => BinaryOp.apply_kind) ?_
  exact Plan.ends_first hparts.values_ends fun _ hright => Plan.ends_only hright .done

theorem index {collection place : Expr} {a b : Value} (hmemory : world'.memory.WellFormed)
    (hparts : Delivered session (.exprs frame [collection, place]) world (.values [a, b]) world') :
    Delivered session (.expr frame (.index collection place)) world
      (.ofData (.ofExcept (world'.memory.index a b))) world' := by
  refine of_data (Value.ofExcept_kind_ne_returned fun _ => hmemory.kind_of_index) ?_
  exact Plan.ends_first hparts.values_ends fun _ hplace => Plan.ends_only hplace .done

theorem conditional {condition : Expr} {consequence : Block} {alternative : Option Block}
    {decision : Value}
    (hparts : Delivered session (.exprs frame [condition]) world (.values [decision]) world')
    (hbranch : Delivered session
      (.block frame (if decision.isTruthy then consequence else alternative.getD []) .null)
      world' outcome world'') :
    Delivered session (.expr frame (.conditional condition consequence alternative)) world outcome
      world'' :=
  hbranch.forward fun _ hends => Plan.ends_only hparts.values_ends hends

theorem call {callee : Expr} {args : List Expr} {f : Value} {values : List Value}
    (hparts : Delivered session (.exprs frame (callee :: args)) world (.values (f :: values))
      world')
    (happly : Delivered session (.apply f values) world' outcome world'') :
    Delivered session (.expr frame (.call callee args)) world outcome world'' :=
  happly.forward fun _ hends =>
    Plan.ends_first hparts.values_ends fun _ hargs => .call hargs hends

theorem more {first : Expr} {rest : List Expr} {values : List Value}
    (hfirst : Delivered session (.expr frame first) world (.value value) world')
    (hrest : Delivered session (.exprs frame rest) world' (.values values) world'') :
    Delivered session (.exprs frame (first :: rest)) world (.values (value :: values)) world'' := by
  obtain ⟨hvalue, hfirst⟩ := hfirst.value_ends
  exact ⟨.many (value :: values),
    Plan.ends_andThen hvalue hfirst (.call hrest.values_ends .done), rfl⟩

theorem rest {first : Expr} {rest : List Expr}
    (hfirst : Delivered session (.expr frame first) world (.value value) world')
    (hrest : Delivered session (.exprs frame rest) world' (.signal signal) world'') :
    Delivered session (.exprs frame (first :: rest)) world (.signal signal) world'' := by
  obtain ⟨hvalue, hfirst⟩ := hfirst.value_ends
  refine hrest.pass fun abrupt _ hends => ?_
  exact Plan.ends_andThen hvalue hfirst (.call hends .done)

section

variable {condition : Expr} {body : Block} {collected : Array Value} {decision : Value}

theorem exit {ref : ArrayRef} {memory : Memory}
    (hcondition : Delivered session (.expr frame condition) world (.value decision) world')
    (hfalse : decision.isTruthy = false)
    (hnew : world'.memory.newArray collected = (ref, memory)) :
    Delivered session (.loop frame condition body collected) world (.value (.array ref))
      { world' with memory } := by
  obtain ⟨hvalue, hcondition⟩ := hcondition.value_ends
  cases hnew
  refine of_value rfl (Plan.ends_andThen hvalue hcondition ?_)
  rw [if_neg (Bool.eq_false_iff.mp hfalse)]
  exact .done

/-- One more time through the body of a loop. -/
theorem ends_round {result result' : Result}
    (hcondition : Delivered session (.expr frame condition) world (.value decision) world')
    (htrue : decision.isTruthy = true)
    (hbody : (session.plan world' (.block frame body .null)).Ends result world'')
    (hround : (session.planRound frame condition body collected result world'').Ends result'
      world''') :
    (session.plan world (.loop frame condition body collected)).Ends result' world''' := by
  obtain ⟨hvalue, hcondition⟩ := hcondition.value_ends
  refine Plan.ends_andThen hvalue hcondition ?_
  rw [if_pos htrue]
  exact .call hbody hround

theorem round
    (hcondition : Delivered session (.expr frame condition) world (.value decision) world')
    (htrue : decision.isTruthy = true)
    (hbody : Delivered session (.block frame body .null) world' (.value value) world'')
    (hloop : Delivered session (.loop frame condition body (collected.push value)) world'' outcome
      world''') :
    Delivered session (.loop frame condition body collected) world outcome world''' := by
  obtain ⟨hvalue, hbody⟩ := hbody.value_ends
  refine hloop.forward fun result hends => ends_round hcondition htrue hbody ?_
  rw [Plan.planRound_of_isAbrupt hvalue]
  exact hends

theorem caught {message : String} {ref : ArrayRef} {memory : Memory}
    (hcondition : Delivered session (.expr frame condition) world (.value decision) world')
    (htrue : decision.isTruthy = true)
    (hbody : Delivered session (.block frame body .null) world' (.signal (.err message)) world'')
    (hnew : world''.memory.newArray #[.error message] = (ref, memory)) :
    Delivered session (.loop frame condition body collected) world (.value (.array ref))
      { world'' with memory } := by
  obtain ⟨value, -, houtcome, hbody⟩ := hbody.exists_signal_ends
  cases hnew
  cases value <;> cases houtcome
  exact of_value rfl (ends_round hcondition htrue hbody .done)

theorem escape
    (hcondition : Delivered session (.expr frame condition) world (.value decision) world')
    (htrue : decision.isTruthy = true)
    (hbody : Delivered session (.block frame body .null) world' (.signal (.ret value)) world'') :
    Delivered session (.loop frame condition body collected) world (.signal (.ret value))
      world'' := by
  obtain ⟨value, -, houtcome, hbody⟩ := hbody.exists_signal_ends
  cases value <;> cases houtcome
  exact ⟨.one (.returned _), ends_round hcondition htrue hbody .done, rfl⟩

end

theorem next {s : Stmt} {rest : Block} {value' : Value}
    (hstmt : Delivered session (.stmt frame s) world (.value value) world')
    (hrest : Delivered session (.block frame rest value) world' outcome world'') :
    Delivered session (.block frame (s :: rest) value') world outcome world'' := by
  obtain ⟨hvalue, hstmt⟩ := hstmt.value_ends
  exact hrest.forward fun _ hends => Plan.ends_andThen hvalue hstmt hends

theorem arity {ref : FunctionRef} {function : Function} {args : List Value}
    (hfunction : world.memory.function? ref = some function)
    (harity : function.params.length ≠ args.length) :
    Delivered session (.apply (.function ref) args) world
      (.raise (.argumentCount function.params.length args.length)) world := by
  refine ⟨.one (Fault.toValue (.argumentCount function.params.length args.length)), ?_, rfl⟩
  change (session.planApply world (.function ref) args).Ends _ world
  rw [Session.planApply, hfunction]
  simp only [harity, if_false]
  exact .done

theorem notFunction {callee : Value} {args : List Value} (hfunction : ∀ ref, callee ≠ .function ref)
    (hbuiltin : ∀ builtin, callee ≠ .builtin builtin) :
    Delivered session (.apply callee args) world (.raise (.notFunction callee.kind)) world := by
  cases callee with
  | function ref => exact absurd rfl (hfunction ref)
  | builtin builtin => exact absurd rfl (hbuiltin builtin)
  | _ => exact ⟨.one _, .done, rfl⟩

end Delivered

/-- A session and a world that evaluation may start from. -/
def Ready (session : Session) (world : World) : Prop :=
  session.Closed ∧ world.memory.WellFormed

section

variable {session : Session} {task : Task} {frame : FrameRef} {world world' : World}
  {outcome : Outcome}

theorem Plan.Ends.ensures {result : Result}
    (hends : (session.plan world task).Ends result world') (hready : Ready session world)
    (htask : task.Ordinary) : task.Delivers result ∧ Ready session world' := by
  have hrequires : discipline.requires session task world := ⟨hready.1, htask, hready.2⟩
  obtain ⟨hresult, hmemory⟩ :=
    kept_discipline.goal_of_ends (kept_discipline _ _ _ hrequires) hends
  exact ⟨hresult, hready.1, hmemory⟩

theorem Delivered.ready (h : Delivered session task world outcome world')
    (hready : Ready session world) (htask : task.Ordinary) : Ready session world' := by
  obtain ⟨result, hends, -⟩ := h
  exact (hends.ensures hready htask).2

/-- A return ends at a call and at a program. -/
theorem Delivered.unwrapReturn {session' : Session} {task' : Task} {start : World} {body : Block}
    (h : Delivered session (.block frame body .null) world outcome world')
    (hready : Ready session world)
    (hforward : ∀ result, (Plan.call session (.block frame body .null) world fun result =>
      .done result.unwrapReturn).Ends result world' →
      (session'.plan start task').Ends result world') :
    Delivered session' task' start outcome.delivered world' := by
  obtain ⟨result, hends, rfl⟩ := h
  have hresult := (hends.ensures hready rfl).1
  refine ⟨result.unwrapReturn, hforward _ (.call hends .done), ?_⟩
  cases result with
  | one value => exact Value.outcome_unwrapReturn hresult
  | many values => exact absurd hresult id

theorem Delivered.body {ref : FunctionRef} {function : Function} {args : List Value}
    {memory : Memory} (hfunction : world.memory.function? ref = some function)
    (harity : function.params.length = args.length)
    (hnew : world.memory.newFrame (some function.frame) = (frame, memory))
    (hbody : Delivered session (.block frame function.body .null)
      { world with memory := memory.bindAll frame (function.params.zip args) } outcome world')
    (hready : Ready session
      { world with memory := memory.bindAll frame (function.params.zip args) }) :
    Delivered session (.apply (.function ref) args) world outcome.delivered world' := by
  refine hbody.unwrapReturn hready fun result hends => ?_
  cases hnew
  change (session.planApply world (.function ref) args).Ends result world'
  rw [Session.planApply, hfunction]
  simp only [harity, if_true]
  exact Plan.ends_binding _ hends

theorem Ready.body {function : Function} {args : List Value} {memory : Memory}
    (hready : Ready session world) (hargs : ∀ arg ∈ args, arg.isAbrupt = false)
    (hnew : world.memory.newFrame (some function.frame) = (frame, memory)) :
    Ready session { world with memory := memory.bindAll frame (function.params.zip args) } := by
  have hframe := hready.2.newFrame (some function.frame)
  rw [hnew] at hframe
  refine ⟨hready.1, hframe.bindAll frame ?_⟩
  intro entry hentry
  exact hargs entry.2 (List.of_mem_zip hentry).2

/-- Whatever is computed with signals on well-formed memory is delivered by the evaluator. -/
theorem Computes.delivered (hcomputes : Computes session task world outcome world')
    (hready : Ready session world) (htask : task.Ordinary) :
    Delivered session task world outcome world' := by
  induction hcomputes with
  | bound hlookup =>
      have hvalue := hready.2.isAbrupt_of_lookupWithin hlookup
      exact .ident (by rw [Session.resolve, hlookup]) (Value.outcome_of_isAbrupt hvalue)
  | builtin hlookup hget => exact .ident (by rw [Session.resolve, hlookup, hget]) rfl
  | unbound hlookup hget => exact .ident (by rw [Session.resolve, hlookup, hget]) rfl
  | int => exact .of_value rfl .done
  | float => exact .of_value rfl .done
  | bool => exact .of_value rfl .done
  | string => exact .of_value rfl .done
  | function hnew =>
      cases hnew
      exact .of_value rfl .done
  | part _ ih => exact (ih hready trivial).pass fun _ _ => Plan.ends_planExpr_of_abrupt
  | array _ hnew ih =>
      cases hnew
      exact .of_value rfl (.call (ih hready trivial).values_ends .done)
  | unary _ ih => exact (ih hready trivial).unary
  | binary _ ih => exact (ih hready trivial).binary
  | index _ ih =>
      have hparts := ih hready trivial
      exact hparts.index (hparts.ready hready trivial).2
  | conditional _ _ ihparts ihbranch =>
      have hparts := ihparts hready trivial
      exact hparts.conditional (ihbranch (hparts.ready hready trivial) rfl)
  | loop _ ih => exact (ih hready nofun).forward fun _ => id
  | call _ _ ihparts ihapply =>
      have hparts := ihparts hready trivial
      have hvalues := (hparts.values_ends.ensures hready trivial).1
      exact hparts.call
        (ihapply (hparts.ready hready trivial) (List.forall_mem_cons.mp hvalues).2)
  | none => exact ⟨.many [], .done, rfl⟩
  | more _ _ ihfirst ihrest =>
      have hfirst := ihfirst hready trivial
      exact hfirst.more (ihrest (hfirst.ready hready trivial) trivial)
  | first _ ih => exact (ih hready trivial).pass fun _ => Plan.ends_andThen_of_abrupt
  | rest _ _ ihfirst ihrest =>
      have hfirst := ihfirst hready trivial
      exact hfirst.rest (ihrest (hfirst.ready hready trivial) trivial)
  | condition _ ih => exact (ih hready trivial).pass fun _ => Plan.ends_andThen_of_abrupt
  | exit _ hfalse hnew ih => exact (ih hready trivial).exit hfalse hnew
  | round _ htrue _ _ ihcondition ihbody ihloop =>
      have hcondition := ihcondition hready trivial
      have hready' := hcondition.ready hready trivial
      have hbody := ihbody hready' rfl
      have hpushed := Value.isAbrupt_of_mem_push htask hbody.value_ends.1
      exact hcondition.round htrue hbody (ihloop (hbody.ready hready' rfl) hpushed)
  | caught _ htrue _ hnew ihcondition ihbody =>
      have hcondition := ihcondition hready trivial
      exact hcondition.caught htrue (ihbody (hcondition.ready hready trivial) rfl) hnew
  | escape _ htrue _ ihcondition ihbody =>
      have hcondition := ihcondition hready trivial
      exact hcondition.escape htrue (ihbody (hcondition.ready hready trivial) rfl)
  | stmtPart _ ih => exact (ih hready trivial).pass fun _ _ => Plan.ends_planStmt_of_abrupt
  | bind _ ih => exact .of_value rfl (Plan.ends_only (ih hready trivial).values_ends .done)
  | ret _ ih =>
      exact ⟨.one (.returned _), Plan.ends_only (ih hready trivial).values_ends .done, rfl⟩
  | expr _ ih => exact (ih hready trivial).forward fun _ => id
  | block _ ih => exact (ih hready rfl).forward fun _ => id
  | last => exact .of_value htask .done
  | next _ _ ihstmt ihrest =>
      have hstmt := ihstmt hready trivial
      exact hstmt.next (ihrest (hstmt.ready hready trivial) hstmt.value_ends.1)
  | stop _ ih => exact (ih hready trivial).pass fun _ => Plan.ends_andThen_of_abrupt
  | body hfunction harity hnew _ ih =>
      have hready' := hready.body htask hnew
      exact .body hfunction harity hnew (ih hready' rfl) hready'
  | arity hfunction harity => exact .arity hfunction harity
  | notFunction hfunction hbuiltin => exact .notFunction hfunction hbuiltin
  | step hcall =>
      exact .of_data (hready.1.step htask hready.2 hcall).1 (Plan.ends_step hcall)
  | line hline _ ih =>
      have hmemory := World.memory_of_programLine? hline ▸ hready.2
      exact (ih ⟨hready.1.standard, hmemory⟩ trivial).forward fun _ => Plan.ends_line hline
  | program _ ih => exact (ih hready rfl).unwrapReturn hready fun _ => id

end

end Monkey
