import Monkey.Evaluation
import Monkey.Proofs.Builtin

/-! # Evaluation, one level at a time

The evaluator is asked for the value of an expression, of a statement, of a call and so on: these
are its tasks. At one level it does something to the world by itself and hands further tasks on. A
`Plan` says what happens at one level, and what the evaluator does follows from plans alone: an
answer is one that the plan ends with (`Plan.Ends`), and a run that has no answer still comes to
moments (`Plan.Reaches`). Neither mentions fuel.
-/

namespace Monkey

/-- What the evaluator can be asked for. -/
inductive Task
  | expr (frame : FrameRef) (e : Expr)
  | exprs (frame : FrameRef) (es : List Expr)
  | loop (frame : FrameRef) (condition : Expr) (body : Block) (collected : Array Value)
  | stmt (frame : FrameRef) (s : Stmt)
  | block (frame : FrameRef) (body : Block) (value : Value)
  | apply (callee : Value) (args : List Value)
  | program (frame : FrameRef) (p : Program)

/-- A value, or the values of several expressions none of which was abrupt. -/
inductive Result
  | one (value : Value)
  | many (values : List Value)

namespace Result

def ofExcept : Except Value (List Value) → Result
  | .ok values => many values
  | .error abrupt => one abrupt

def unwrapReturn : Result → Result
  | one value => one value.unwrapReturn
  | many values => many values

end Result

/-- The answer of the evaluator to a task. -/
def Task.run (fuel : Nat) (session : Session) (world : World) : Task → Option (Result × World)
  | .expr frame e => ((session.evalExpr fuel frame e).run world).map (.map .one id)
  | .exprs frame es => ((session.evalExprs fuel frame es).run world).map (.map .ofExcept id)
  | .loop frame condition body collected =>
    ((session.evalLoop fuel frame condition body collected).run world).map (.map .one id)
  | .stmt frame s => ((session.evalStmt fuel frame s).run world).map (.map .one id)
  | .block frame body value =>
    ((session.evalBlock fuel frame body value).run world).map (.map .one id)
  | .apply callee args => ((session.apply fuel callee args).run world).map (.map .one id)
  | .program frame p => ((session.evalProgram fuel frame p).run world).map (.map .one id)

/-! ## Plans -/

/-- What happens at one level of evaluation: it ends, it has no answer, it passes through a world,
or it hands a task on and continues with the result. -/
inductive Plan
  | done (result : Result) (world : World)
  | stuck
  | pass (world : World) (next : Plan)
  | call (session : Session) (task : Task) (world : World) (next : Result → World → Plan)

namespace Plan

/-- Continues with a value unless it is abrupt. -/
def andThen (next : Value → World → Plan) : Result → World → Plan
  | .one value, world => if value.isAbrupt then done (.one value) world else next value world
  | .many _, _ => stuck

/-- Continues with values unless one was abrupt. -/
def withValues (next : List Value → World → Plan) : Result → World → Plan
  | .one abrupt, world => done (.one abrupt) world
  | .many values, world => next values world

/-- Ends with a new array. -/
def newArray (elements : Array Value) (world : World) : Plan :=
  done (.one (.array (world.memory.newArray elements).1))
    { world with memory := (world.memory.newArray elements).2 }

/-- Ends with an answer, if there is one. -/
def ofAnswer : Option (Value × World) → Plan
  | some (value, world) => done (.one value) world
  | none => stuck

/-- Binds names one by one. -/
def binding (frame : FrameRef) (next : World → Plan) : List (String × Value) → World → Plan
  | [], world => next world
  | entry :: rest, world =>
    pass world (binding frame next rest
      { world with memory := world.memory.bind frame entry.1 entry.2 })

end Plan

namespace Session

def planExpr (session : Session) (frame : FrameRef) (world : World) : Expr → Plan
  | .ident name => .done (.one (session.resolve frame name world.memory)) world
  | .int value => .done (.one (.integer value)) world
  | .float value => .done (.one (.float value)) world
  | .bool value => .done (.one (.boolean value)) world
  | .string value => .done (.one (.string value)) world
  | .array elements =>
    .call session (.exprs frame elements) world <| .withValues fun values =>
      .newArray values.toArray
  | .unary op operand =>
    .call session (.expr frame operand) world <| .andThen fun operand =>
      .done (.one (.ofExcept (op.apply operand)))
  | .binary op left right =>
    .call session (.expr frame left) world <| .andThen fun left world =>
      .call session (.expr frame right) world <| .andThen fun right =>
        .done (.one (.ofExcept (op.apply left right)))
  | .index collection index =>
    .call session (.expr frame collection) world <| .andThen fun collection world =>
      .call session (.expr frame index) world <| .andThen fun index world =>
        .done (.one (.ofExcept (world.memory.index collection index))) world
  | .conditional condition consequence alternative =>
    .call session (.expr frame condition) world <| .andThen fun condition world =>
      let body := if condition.isTruthy then consequence else alternative.getD []
      .call session (.block frame body .null) world .done
  | .loop condition body => .call session (.loop frame condition body #[]) world .done
  | .function params body =>
    .done (.one (.function (world.memory.newFunction ⟨params, body, frame⟩).1))
      { world with memory := (world.memory.newFunction ⟨params, body, frame⟩).2 }
  | .call callee args =>
    .call session (.expr frame callee) world <| .andThen fun callee world =>
      .call session (.exprs frame args) world <| .withValues fun args world =>
        .call session (.apply callee args) world .done

def planStmt (session : Session) (frame : FrameRef) (world : World) : Stmt → Plan
  | .bind name value =>
    .call session (.expr frame value) world <| .andThen fun value world =>
      .done (.one .null) { world with memory := world.memory.bind frame name value }
  | .ret value =>
    .call session (.expr frame value) world <| .andThen fun value =>
      .done (.one (.returned value))
  | .expr value => .call session (.expr frame value) world .done
  | .block body => .call session (.block frame body .null) world .done

/-- A call of a builtin function is one step, except that `get` evaluates a line that is a
program. -/
def planBuiltin (session : Session) (world : World) (builtin : Builtin) (args : List Value) :
    Plan :=
  let answer := Plan.ofAnswer
    ((Eval.settle (builtin.call (fun _ => failure) session.foreign args)).run world)
  if builtin = .get ∧ args = [] then
    match world.programLine? with
    | some (p, world) => .call session.standard (.program session.top p) world .done
    | none => answer
  else answer

def planApply (session : Session) (world : World) : Value → List Value → Plan
  | .function ref, args =>
    match world.memory.function? ref with
    | none => .stuck
    | some function =>
      if function.params.length = args.length then
        let (frame, memory) := world.memory.newFrame (some function.frame)
        .binding frame
          (fun world =>
            .call session (.block frame function.body .null) world fun result =>
              .done result.unwrapReturn)
          (function.params.zip args) { world with memory }
      else
        .done (.one (Fault.toValue (.argumentCount function.params.length args.length))) world
  | .builtin builtin, args => session.planBuiltin world builtin args
  | value, _ => .done (.one (Fault.toValue (.notFunction value.kind))) world

/-- How a loop goes on after its body. -/
def planRound (session : Session) (frame : FrameRef) (condition : Expr) (body : Block)
    (collected : Array Value) : Result → World → Plan
  | .one (.error message), world => .newArray #[.error message] world
  | .one (.returned value), world => .done (.one (.returned value)) world
  | .one value, world =>
    .call session (.loop frame condition body (collected.push value)) world .done
  | .many _, _ => .stuck

/-- What happens at the level of a task itself. -/
def plan (session : Session) (world : World) : Task → Plan
  | .expr frame e => session.planExpr frame world e
  | .exprs _ [] => .done (.many []) world
  | .exprs frame (first :: rest) =>
    .call session (.expr frame first) world <| .andThen fun value world =>
      .call session (.exprs frame rest) world <| .withValues fun values =>
        .done (.many (value :: values))
  | .loop frame condition body collected =>
    .call session (.expr frame condition) world <| .andThen fun decision world =>
      if decision.isTruthy then
        .call session (.block frame body .null) world
          (session.planRound frame condition body collected)
      else
        .newArray collected world
  | .stmt frame s => session.planStmt frame world s
  | .block _ [] value => .done (.one value) world
  | .block frame (first :: rest) _ =>
    .call session (.stmt frame first) world <| .andThen fun value world =>
      .call session (.block frame rest value) world .done
  | .apply callee args => session.planApply world callee args
  | .program frame p =>
    .call session (.block frame p .null) world fun result => .done result.unwrapReturn

end Session

end Monkey
