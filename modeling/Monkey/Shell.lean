import Monkey.Evaluation
import Monkey.Text.Blank

/-!
# The shell

The shell runs sources, from a file or line by line, in one session and prints what the user should
see: the diagnostics of a rejected source, the program if asked to, and its value unless it is null.
-/

namespace Monkey

/-- A session and whether programs are printed before they run. -/
structure Shell where
  session : Session
  showProgram : Bool

namespace Shell

/-- What became of a source. -/
inductive Outcome
  | evaluated (value : Value)
  | rejected (diagnostics : List Diagnostic)

/-- Why a file or an interactive session ended early. -/
inductive Failure
  | unreadable (path : String) (failure : Host.Failure)
  | rejected (count : Nat)
  | stopped
  | console (failure : Host.Failure)
deriving DecidableEq, Repr, Inhabited

namespace Failure

/-- The wording of a failure. -/
def message : Failure → String
  | unreadable path failure => "could not read `" ++ path ++ "`: " ++ failure.message
  | rejected count => toString count ++ " parse error(s), nothing was evaluated"
  | stopped => "script stopped on a runtime error"
  | console failure => "console I/O failed: " ++ failure.message

/-- The exit status for a failure: bad input, a fault of the script, or trouble with the outside. -/
def exitCode : Failure → Nat
  | rejected _ => 65
  | stopped => 70
  | unreadable .. | console _ => 74

end Failure

/-- A shell with a new session that has console and file access or is denied it. -/
def create (showProgram hostAccess : Bool) : Eval Shell := do
  let registry := if hostAccess then Registry.standard.withHost else Registry.standard
  return ⟨← Session.create registry, showProgram⟩

/-- Runs a source and prints its value. A rejected source is not run. -/
def run (fuel : Nat) (shell : Shell) (source : String) : Printing Outcome := do
  let parsed := parse source
  if parsed.diagnostics.isEmpty then
    if shell.showProgram then
      Printing.writeLine parsed.program.render
    let value ← Printing.ofEval
      (Session.evalProgram fuel shell.session shell.session.top parsed.program)
    if value.kind ≠ .null then
      Printing.valueLine value
    return .evaluated value
  else
    Printing.diagnostics parsed.diagnostics
    return .rejected parsed.diagnostics

/-- Runs a file. It fails if the file is rejected or its value is an error. -/
def runFile (fuel : Nat) (shell : Shell) (path : String) : ExceptT Failure Eval Unit := do
  match (← get).files.readText path with
  | .error failure => throw (.unreadable path failure)
  | .ok source =>
    match ← (shell.run fuel source).adapt Failure.console with
    | .rejected diagnostics => throw (.rejected diagnostics.length)
    | .evaluated (.error _) => throw .stopped
    | .evaluated _ => return

/-- The greeting of an interactive session. -/
def banner : String := "Monkey REPL. Type `exit` or `e` to quit."

/-- What invites the user to enter a line. -/
def prompt : String := ">> "

/-- Reads and runs lines up to the end of the input or a line that asks to leave. Blanks around a
line and blank lines mean nothing. -/
def lines : Nat → Shell → Printing Unit
  | 0, _ => Printing.ofEval failure
  | fuel + 1, shell => do
    Printing.write prompt
    match ← Printing.readLine with
    | none => return
    | some line =>
      let source := Text.trim line
      if source = "exit" ∨ source = "e" then
        return
      else if source = "" then
        lines fuel shell
      else
        let _ ← shell.run fuel source
        lines fuel shell

/-- An interactive session. -/
def interact (fuel : Nat) (shell : Shell) : Printing Unit := do
  Printing.writeLine banner
  lines fuel shell

end Shell

end Monkey
