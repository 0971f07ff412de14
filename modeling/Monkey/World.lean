import Monkey.Fault
import Monkey.Host.Console
import Monkey.Host.Directory
import Monkey.Memory.Unfolding

/-!
# The state of a run

Evaluation works on memory, the console and the files of the working directory. It may have no
answer: a script need not end, and a value need not have a text. The text of a value is written
piece by piece, so that an output that is closed ends even a text without end.
-/

namespace Monkey

/-- Everything that evaluation can change. -/
structure World where
  memory : Memory
  console : Host.Console
  files : Host.Directory

/-- A computation that changes the world and delivers a result, or has no answer. -/
abbrev Eval (α : Type) := StateT World Option α

/-- A computation that may fail with a fault. -/
abbrev Call (α : Type) := ExceptT Fault Eval α

/-- A computation that may fail because of the console. -/
abbrev Printing (α : Type) := ExceptT Host.Failure Eval α

namespace World

/-- A world without frames, arrays and functions. -/
def initial (console : Host.Console) (files : Host.Directory) : World :=
  ⟨.empty, console, files⟩

/-- How many levels of arrays are written one inside the other. Below as many levels as there are
arrays one of them is inside itself, and a bounded output is closed before there are more levels
than bytes, as every level begins with a bracket. -/
def levels (world : World) : Nat :=
  world.memory.arrays.size + 1 + world.console.capacity.getD 0

end World

namespace Eval

variable {α : Type}

/-- Reads from memory. -/
def ofMemory (f : Memory → α) : Eval α := do
  return f (← get).memory

/-- Changes memory. -/
def updateMemory (f : Memory → α × Memory) : Eval α :=
  modifyGet fun world =>
    let (result, memory) := f world.memory
    (result, { world with memory })

/-- The text of a value; no answer for an array that contains itself. -/
def text (value : Value) : Eval String := do
  match ← ofMemory (·.text? value) with
  | some text => return text
  | none => failure

/-- How many levels of arrays are written. -/
def levels : Eval Nat := do
  return (← get).levels

/-- A new array as a value. -/
def newArray (elements : Array Value) : Eval Value :=
  .array <$> updateMemory (Memory.newArray elements)

/-- The value of a call, a fault becoming an error value. -/
def settle (call : Call Value) : Eval Value :=
  Value.ofExcept <$> call.run

/-- Continues with a value unless it is abrupt. -/
def andThen (first : Eval Value) (next : Value → Eval Value) : Eval Value := do
  let value ← first
  if value.isAbrupt then
    return value
  else
    next value

end Eval

namespace Printing

variable {α : Type}

/-- A computation without failures as part of one that prints. -/
def ofEval (computation : Eval α) : Printing α :=
  ExceptT.lift computation

/-- Reads a line from the console. -/
def readLine : Printing (Option String) :=
  ExceptT.mk <| modifyGet fun world =>
    let (line, console) := world.console.readLine
    (line, { world with console })

/-- Writes a text to the console. -/
def write (text : String) : Printing Unit :=
  ExceptT.mk <| modifyGet fun world =>
    let (result, console) := world.console.write text
    (result, { world with console })

/-- Writes a line to the console. -/
def writeLine (text : String) : Printing Unit :=
  write (text ++ "\n")

/-- Writes the elements of an array with commas between them, given how each is written. -/
def elements (element : Value → Printing Unit) : List Value → Printing Unit
  | [] => return
  | [last] => element last
  | first :: rest => do
    element first
    write ", "
    elements element rest

/-- Writes a value, given how arrays are written. -/
def valueWith (array : ArrayRef → Printing Unit) : Value → Printing Unit
  | .array ref => array ref
  | .returned value => valueWith array value
  | value => do write (← ofEval (Eval.text value))

/-- Writes an array piece by piece, at most the given number of levels deep; no answer below. -/
def array : Nat → ArrayRef → Printing Unit
  | 0, _ => ofEval failure
  | depth + 1, ref => do
    write "["
    let contents ← ofEval (Eval.ofMemory (·.elements ref))
    elements (valueWith (array depth)) contents.toList
    write "]"

/-- Writes a line that shows a value; no answer for an array that contains itself, unless the output
is closed before. -/
def valueLine (value : Value) : Printing Unit := do
  let depth ← ofEval Eval.levels
  valueWith (array depth) value
  write "\n"

end Printing

namespace Call

variable {α : Type}

/-- A computation without faults as part of a call. -/
def ofEval (computation : Eval α) : Call α :=
  ExceptT.lift computation

/-- Uses the console in a call. -/
def ofPrinting (printing : Printing α) : Call α :=
  printing.adapt Fault.console

/-- The array that an argument must be. -/
def array (function : String) : Value → Call ArrayRef
  | .array ref => return ref
  | value => throw (.argumentType function .array value.kind)

/-- The elements of the array that an argument must be. -/
def elements (function : String) (value : Value) : Call (Array Value) := do
  let ref ← array function value
  ofEval (Eval.ofMemory (·.elements ref))

/-- The string that an argument must be. -/
def string (function : String) : Value → Call String
  | .string text => return text
  | value => throw (.argumentType function .string value.kind)

/-- The text of a file. -/
def readFile (path : String) : Call String := do
  match (← get).files.readText path with
  | .ok text => return text
  | .error failure => throw (.unreadable path failure)

/-- Writes a text to a file. -/
def writeFile (path text : String) : Call Unit := do
  match (← get).files.write path text.toUTF8 with
  | .ok files => modify ({ · with files })
  | .error failure => throw (.unwritable path failure)

end Call

end Monkey
