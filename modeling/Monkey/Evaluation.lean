import Monkey.Builtin.Call
import Monkey.Operator
import Monkey.Session

/-!
# Evaluation

Expressions, statements and programs are evaluated in a frame of memory. The parts of a construct
are evaluated from left to right, and the first abrupt value among them is the value of the whole.
A call and a program turn a pending return into its value; a loop turns an error of its body into
an array that holds it.

Every step works with less fuel than the step around it, and there is no answer once the fuel is
used up. An answer does not depend on how much fuel was left.
-/

namespace Monkey.Session

mutual

/-- Evaluates an expression. -/
def evalExpr : Nat → Session → FrameRef → Expr → Eval Value
  | 0, _, _, _ => failure
  | fuel + 1, session, frame, e =>
    match e with
    | .ident name => Eval.ofMemory (session.resolve frame name)
    | .int value => return .integer value
    | .float value => return .float value
    | .bool value => return .boolean value
    | .string value => return .string value
    | .array elements => do
      match ← evalExprs fuel session frame elements with
      | .ok values => Eval.newArray values.toArray
      | .error abrupt => return abrupt
    | .unary op operand =>
      Eval.andThen (evalExpr fuel session frame operand) fun operand =>
        return .ofExcept (op.apply operand)
    | .binary op left right =>
      Eval.andThen (evalExpr fuel session frame left) fun left =>
        Eval.andThen (evalExpr fuel session frame right) fun right =>
          return .ofExcept (op.apply left right)
    | .index collection index =>
      Eval.andThen (evalExpr fuel session frame collection) fun collection =>
        Eval.andThen (evalExpr fuel session frame index) fun index =>
          Eval.ofMemory fun memory => .ofExcept (memory.index collection index)
    | .conditional condition consequence alternative =>
      Eval.andThen (evalExpr fuel session frame condition) fun condition =>
        if condition.isTruthy then
          evalBlock fuel session frame consequence .null
        else
          evalBlock fuel session frame (alternative.getD []) .null
    | .loop condition body => evalLoop fuel session frame condition body #[]
    | .function params body =>
      .function <$> Eval.updateMemory (Memory.newFunction ⟨params, body, frame⟩)
    | .call callee args =>
      Eval.andThen (evalExpr fuel session frame callee) fun callee => do
        match ← evalExprs fuel session frame args with
        | .ok args => apply fuel session callee args
        | .error abrupt => return abrupt

/-- Evaluates expressions up to the first abrupt value, which then stands for all of them. -/
def evalExprs : Nat → Session → FrameRef → List Expr → Eval (Except Value (List Value))
  | 0, _, _, _ => failure
  | _ + 1, _, _, [] => return .ok []
  | fuel + 1, session, frame, first :: rest => do
    let value ← evalExpr fuel session frame first
    if value.isAbrupt then
      return .error value
    else
      return (← evalExprs fuel session frame rest).map (value :: ·)

/-- Evaluates a loop that has already collected the values of some rounds. An error of the body ends
the loop and is the only element of its value. -/
def evalLoop : Nat → Session → FrameRef → Expr → Block → Array Value → Eval Value
  | 0, _, _, _, _, _ => failure
  | fuel + 1, session, frame, condition, body, collected =>
    Eval.andThen (evalExpr fuel session frame condition) fun decision => do
      if decision.isTruthy then
        match ← evalBlock fuel session frame body .null with
        | .error message => Eval.newArray #[.error message]
        | .returned value => return .returned value
        | value => evalLoop fuel session frame condition body (collected.push value)
      else
        Eval.newArray collected

/-- Evaluates a statement. -/
def evalStmt : Nat → Session → FrameRef → Stmt → Eval Value
  | 0, _, _, _ => failure
  | fuel + 1, session, frame, s =>
    match s with
    | .bind name value =>
      Eval.andThen (evalExpr fuel session frame value) fun value =>
        Eval.updateMemory fun memory => (.null, memory.bind frame name value)
    | .ret value =>
      Eval.andThen (evalExpr fuel session frame value) fun value => return .returned value
    | .expr value => evalExpr fuel session frame value
    | .block body => evalBlock fuel session frame body .null

/-- Evaluates statements in order. The value is that of the last one, or the given value if there is
none. -/
def evalBlock : Nat → Session → FrameRef → Block → Value → Eval Value
  | 0, _, _, _, _ => failure
  | _ + 1, _, _, [], value => return value
  | fuel + 1, session, frame, first :: rest, _ =>
    Eval.andThen (evalStmt fuel session frame first) fun value =>
      evalBlock fuel session frame rest value

/-- Calls a value. A function runs in a new frame inside the frame it was created in. -/
def apply : Nat → Session → Value → List Value → Eval Value
  | 0, _, _, _ => failure
  | fuel + 1, session, callee, args =>
    match callee with
    | .function ref => do
      match ← Eval.ofMemory (·.function? ref) with
      | none => failure
      | some function =>
        if function.params.length = args.length then
          let frame ← Eval.updateMemory (Memory.newFrame (some function.frame))
          Eval.updateMemory fun memory =>
            ((), memory.bindAll frame (function.params.zip args))
          return (← evalBlock fuel session frame function.body .null).unwrapReturn
        else
          return Fault.toValue (.argumentCount function.params.length args.length)
    | .builtin builtin =>
      let evaluate := evalProgram fuel session.standard session.top
      Eval.settle (builtin.call evaluate session.foreign args)
    | value => return Fault.toValue (.notFunction value.kind)

/-- Evaluates a program. -/
def evalProgram : Nat → Session → FrameRef → Program → Eval Value
  | 0, _, _, _ => failure
  | fuel + 1, session, frame, p =>
    return (← evalBlock fuel session frame p .null).unwrapReturn

end

/-- Evaluates a source text in the top frame, unless it is rejected. -/
def evalSource (fuel : Nat) (session : Session) (text : String) :
    Eval (Except (List Diagnostic) Value) := do
  let parsed := parse text
  if parsed.diagnostics.isEmpty then
    return .ok (← evalProgram fuel session session.top parsed.program)
  else
    return .error parsed.diagnostics

end Monkey.Session
