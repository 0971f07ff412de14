import Monkey.Program.Parse
import Monkey.World

/-!
# Calling builtin functions

The number of arguments is checked first, then their types from left to right. The functions on
arrays leave their argument alone, with the exception of `add`.
-/

namespace Monkey

/-- Writes the diagnostics of a rejected source, one to a line. -/
def Printing.diagnostics (diagnostics : List Diagnostic) : Printing Unit := do
  writeLine "Parser errors:"
  for diagnostic in diagnostics do
    writeLine ("\t" ++ diagnostic.message)

namespace Builtin

/-- How many arguments a function takes, for the functions that take a fixed number. -/
def arity : Builtin → Nat
  | get | clear | put | foreign _ => 0
  | len | string | first | last | rest | read => 1
  | push | add | write => 2

/-- The number of characters of a string or of elements of an array. -/
def callLen : Value → Call Value
  | .string text => return .integer (.ofNat text.length)
  | .array ref => do
    let elements ← Call.ofEval (Eval.ofMemory (·.elements ref))
    return .integer (.ofNat elements.size)
  | value => throw (.noLength value.kind)

/-- All elements but the first as a new array, nothing for an empty array. -/
def callRest (value : Value) : Call Value := do
  let elements ← Call.elements "rest" value
  if elements.isEmpty then
    return .null
  else
    Call.ofEval (Eval.newArray (elements.extract 1 elements.size))

/-- Reads a line and evaluates it as a program. There is no value at the end of the input or when
the line is rejected, in which case its diagnostics are printed. -/
def callGet (evaluate : Program → Eval Value) : Call Value := do
  match ← Call.ofPrinting Printing.readLine with
  | none => return .null
  | some line =>
    let parsed := parse line
    if parsed.diagnostics.isEmpty then
      Call.ofEval (evaluate parsed.program)
    else
      Call.ofPrinting (Printing.diagnostics parsed.diagnostics)
      return .null

/-- The control sequence that clears a terminal. -/
def clearScreen : String := "\x1b[2J\x1b[H"

/-- Calls a builtin function. `evaluate` is how `get` evaluates a line, and `foreign` is what the
program around the interpreter supplies. -/
def call (evaluate : Program → Eval Value) (foreign : String → List Value → Call Value) :
    Builtin → List Value → Call Value
  | .len, [value] => callLen value
  | .string, [value] => return .string (← Call.ofEval (Eval.text value))
  | .first, [value] => return (← Call.elements "first" value)[0]?.getD .null
  | .last, [value] => return (← Call.elements "last" value).back?.getD .null
  | .rest, [value] => callRest value
  | .push, [array, value] => do
    let elements ← Call.elements "push" array
    Call.ofEval (Eval.newArray (elements.push value))
  | .add, [array, value] => do
    let ref ← Call.array "add" array
    Call.ofEval (Eval.updateMemory fun memory => (.null, memory.append ref value))
  | .put, args => do
    for arg in args do
      Call.ofPrinting (Printing.valueLine arg)
    return .null
  | .get, [] => callGet evaluate
  | .read, [path] => do
    let path ← Call.string "read" path
    return .string (← Call.readFile path)
  | .write, [path, value] => do
    let path ← Call.string "write" path
    Call.writeFile path (← Call.ofEval (Eval.text value))
    return .null
  | .clear, [] => do
    Call.ofPrinting (Printing.write clearScreen)
    return .null
  | .foreign name, args => foreign name args
  | builtin, args => throw (.argumentCount builtin.arity args.length)

end Builtin

end Monkey
