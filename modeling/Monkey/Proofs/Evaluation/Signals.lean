import Monkey.Proofs.Evaluation

/-! # Evaluation with signals

A second account of evaluation, in which errors and pending returns are not values. An evaluation
ends with data or raises a signal, and a signal travels outwards until something catches it: a call
or a program catches a return, and a loop catches an error of its body. Errors are data only as
elements of an array, and reading such an element raises it again.
-/

namespace Monkey

/-- What cuts an evaluation short. -/
inductive Signal
  | ret (value : Value)
  | err (message : String)

/-- How an evaluation ends. -/
inductive Outcome
  | value (value : Value)
  | values (values : List Value)
  | signal (signal : Signal)

namespace Outcome

/-- The outcome of an operation with the given result: an error is raised. -/
def ofData : Value → Outcome
  | .error message => signal (.err message)
  | data => value data

def raise (fault : Fault) : Outcome := signal (.err fault.message)

/-- Catches a return. -/
def delivered : Outcome → Outcome
  | signal (.ret data) => value data
  | outcome => outcome

end Outcome

/-- The parts that are evaluated, from left to right, before anything else happens. -/
def Expr.parts : Expr → List Expr
  | .array elements => elements
  | .unary _ operand => [operand]
  | .binary _ left right => [left, right]
  | .index collection place => [collection, place]
  | .conditional condition _ _ => [condition]
  | .call callee args => callee :: args
  | _ => []

def Stmt.parts : Stmt → List Expr
  | .bind _ value => [value]
  | .ret value => [value]
  | _ => []

/-- A task, carried out in one world, has an outcome in another. -/
inductive Computes : Session → Task → World → Outcome → World → Prop
  | bound {session frame world name value}
    (hlookup : world.memory.lookup? frame name = some value) :
    Computes session (.expr frame (.ident name)) world (.value value) world
  | builtin {session frame world name builtin}
    (hlookup : world.memory.lookup? frame name = none)
    (hget : session.registry.get? name = some builtin) :
    Computes session (.expr frame (.ident name)) world (.value (.builtin builtin)) world
  | unbound {session frame world name}
    (hlookup : world.memory.lookup? frame name = none)
    (hget : session.registry.get? name = none) :
    Computes session (.expr frame (.ident name)) world (.raise (.unbound name)) world
  | int {session frame world n} :
    Computes session (.expr frame (.int n)) world (.value (.integer n)) world
  | float {session frame world x} :
    Computes session (.expr frame (.float x)) world (.value (.float x)) world
  | bool {session frame world b} :
    Computes session (.expr frame (.bool b)) world (.value (.boolean b)) world
  | string {session frame world text} :
    Computes session (.expr frame (.string text)) world (.value (.string text)) world
  | function {session frame world memory params body ref}
    (hnew : world.memory.newFunction ⟨params, body, frame⟩ = (ref, memory)) :
    Computes session (.expr frame (.function params body)) world (.value (.function ref))
      { world with memory }
  -- The first signal among the parts is the outcome of the whole.
  | part {session frame world world' signal e}
    (hparts : Computes session (.exprs frame e.parts) world (.signal signal) world') :
    Computes session (.expr frame e) world (.signal signal) world'
  | array {session frame world world' memory elements values ref}
    (hparts : Computes session (.exprs frame elements) world (.values values) world')
    (hnew : world'.memory.newArray values.toArray = (ref, memory)) :
    Computes session (.expr frame (.array elements)) world (.value (.array ref))
      { world' with memory }
  | unary {session frame world world' op operand a}
    (hparts : Computes session (.exprs frame [operand]) world (.values [a]) world') :
    Computes session (.expr frame (.unary op operand)) world (.ofData (.ofExcept (op.apply a)))
      world'
  | binary {session frame world world' op left right a b}
    (hparts : Computes session (.exprs frame [left, right]) world (.values [a, b]) world') :
    Computes session (.expr frame (.binary op left right)) world
      (.ofData (.ofExcept (op.apply a b))) world'
  | index {session frame world world' collection index a b}
    (hparts : Computes session (.exprs frame [collection, index]) world (.values [a, b]) world') :
    Computes session (.expr frame (.index collection index)) world
      (.ofData (.ofExcept (world'.memory.index a b))) world'
  | conditional {session frame world world' world'' outcome condition consequence alternative
    decision}
    (hparts : Computes session (.exprs frame [condition]) world (.values [decision]) world')
    (hbranch : Computes session
      (.block frame (if decision.isTruthy then consequence else alternative.getD []) .null)
      world' outcome world'') :
    Computes session (.expr frame (.conditional condition consequence alternative)) world outcome
      world''
  | loop {session frame world world' outcome condition body}
    (hloop : Computes session (.loop frame condition body #[]) world outcome world') :
    Computes session (.expr frame (.loop condition body)) world outcome world'
  | call {session frame world world' world'' outcome callee args f values}
    (hparts : Computes session (.exprs frame (callee :: args)) world (.values (f :: values)) world')
    (happly : Computes session (.apply f values) world' outcome world'') :
    Computes session (.expr frame (.call callee args)) world outcome world''
  -- Several expressions, from left to right, up to the first signal.
  | none {session frame world} :
    Computes session (.exprs frame []) world (.values []) world
  | more {session frame world world' world'' first rest value values}
    (hfirst : Computes session (.expr frame first) world (.value value) world')
    (hrest : Computes session (.exprs frame rest) world' (.values values) world'') :
    Computes session (.exprs frame (first :: rest)) world (.values (value :: values)) world''
  | first {session frame world world' signal first rest}
    (hfirst : Computes session (.expr frame first) world (.signal signal) world') :
    Computes session (.exprs frame (first :: rest)) world (.signal signal) world'
  | rest {session frame world world' world'' signal first rest value}
    (hfirst : Computes session (.expr frame first) world (.value value) world')
    (hrest : Computes session (.exprs frame rest) world' (.signal signal) world'') :
    Computes session (.exprs frame (first :: rest)) world (.signal signal) world''
  -- Nothing catches a signal of the condition; of the body, only an error is caught, and then the
  -- collected values are dropped.
  | condition {session frame world world' signal condition body collected}
    (hcondition : Computes session (.expr frame condition) world (.signal signal) world') :
    Computes session (.loop frame condition body collected) world (.signal signal) world'
  | exit {session frame world world' memory condition body collected decision ref}
    (hcondition : Computes session (.expr frame condition) world (.value decision) world')
    (hfalse : decision.isTruthy = false)
    (hnew : world'.memory.newArray collected = (ref, memory)) :
    Computes session (.loop frame condition body collected) world (.value (.array ref))
      { world' with memory }
  | round {session frame world world' world'' world''' outcome condition body collected decision
    value}
    (hcondition : Computes session (.expr frame condition) world (.value decision) world')
    (htrue : decision.isTruthy = true)
    (hbody : Computes session (.block frame body .null) world' (.value value) world'')
    (hloop : Computes session (.loop frame condition body (collected.push value)) world'' outcome
      world''') :
    Computes session (.loop frame condition body collected) world outcome world'''
  | caught {session frame world world' world'' memory condition body collected decision message ref}
    (hcondition : Computes session (.expr frame condition) world (.value decision) world')
    (htrue : decision.isTruthy = true)
    (hbody : Computes session (.block frame body .null) world' (.signal (.err message)) world'')
    (hnew : world''.memory.newArray #[.error message] = (ref, memory)) :
    Computes session (.loop frame condition body collected) world (.value (.array ref))
      { world'' with memory }
  | escape {session frame world world' world'' condition body collected decision value}
    (hcondition : Computes session (.expr frame condition) world (.value decision) world')
    (htrue : decision.isTruthy = true)
    (hbody : Computes session (.block frame body .null) world' (.signal (.ret value)) world'') :
    Computes session (.loop frame condition body collected) world (.signal (.ret value)) world''
  | stmtPart {session frame world world' signal s}
    (hparts : Computes session (.exprs frame s.parts) world (.signal signal) world') :
    Computes session (.stmt frame s) world (.signal signal) world'
  | bind {session frame world world' name e value}
    (hparts : Computes session (.exprs frame [e]) world (.values [value]) world') :
    Computes session (.stmt frame (.bind name e)) world (.value .null)
      { world' with memory := world'.memory.bind frame name value }
  | ret {session frame world world' e value}
    (hparts : Computes session (.exprs frame [e]) world (.values [value]) world') :
    Computes session (.stmt frame (.ret e)) world (.signal (.ret value)) world'
  | expr {session frame world world' outcome e}
    (hexpr : Computes session (.expr frame e) world outcome world') :
    Computes session (.stmt frame (.expr e)) world outcome world'
  | block {session frame world world' outcome body}
    (hbody : Computes session (.block frame body .null) world outcome world') :
    Computes session (.stmt frame (.block body)) world outcome world'
  | last {session frame world value} :
    Computes session (.block frame [] value) world (.value value) world
  | next {session frame world world' world'' outcome s rest value value'}
    (hstmt : Computes session (.stmt frame s) world (.value value) world')
    (hrest : Computes session (.block frame rest value) world' outcome world'') :
    Computes session (.block frame (s :: rest) value') world outcome world''
  | stop {session frame world world' signal s rest value}
    (hstmt : Computes session (.stmt frame s) world (.signal signal) world') :
    Computes session (.block frame (s :: rest) value) world (.signal signal) world'
  -- A function runs in a frame of its own, and its call is the end of a return.
  | body {session frame' world world' memory outcome ref function args}
    (hfunction : world.memory.function? ref = some function)
    (harity : function.params.length = args.length)
    (hnew : world.memory.newFrame (some function.frame) = (frame', memory))
    (hbody : Computes session (.block frame' function.body .null)
      { world with memory := memory.bindAll frame' (function.params.zip args) } outcome world') :
    Computes session (.apply (.function ref) args) world outcome.delivered world'
  | arity {session world ref function args}
    (hfunction : world.memory.function? ref = some function)
    (harity : function.params.length ≠ args.length) :
    Computes session (.apply (.function ref) args) world
      (.raise (.argumentCount function.params.length args.length)) world
  | notFunction {session world callee args}
    (hfunction : ∀ ref, callee ≠ .function ref)
    (hbuiltin : ∀ builtin, callee ≠ .builtin builtin) :
    Computes session (.apply callee args) world (.raise (.notFunction callee.kind)) world
  -- `get` evaluates the line that it reads; all other calls of builtin functions are one step.
  | step {session world world' builtin args value}
    (hcall : (Eval.settle (builtin.call (fun _ => failure) session.foreign args)).run world =
      some (value, world')) :
    Computes session (.apply (.builtin builtin) args) world (.ofData value) world'
  | line {session world world' world'' outcome p}
    (hline : world.programLine? = some (p, world'))
    (hprogram : Computes session.standard (.program session.top p) world' outcome world'') :
    Computes session (.apply (.builtin .get) []) world outcome world''
  | program {session frame world world' outcome p}
    (hbody : Computes session (.block frame p .null) world outcome world') :
    Computes session (.program frame p) world outcome.delivered world'

end Monkey
