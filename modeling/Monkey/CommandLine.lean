import Monkey.Shell

/-!
# The command line

The arguments ask to run a file or, without one, an interactive session.
-/

namespace Monkey.CommandLine

/-- What to run and how. -/
structure Options where
  file : Option String
  showProgram : Bool
  noHost : Bool
deriving DecidableEq, Repr, Inhabited

/-- What the arguments ask for. -/
inductive Request
  | run (options : Options)
  | version
  | help
  | misuse
deriving DecidableEq, Repr, Inhabited

/-- Takes an argument as the file to run. There is at most one, and its name is not empty. -/
def Options.withFile? (options : Options) (file : String) : Option Options :=
  if options.file.isSome ∨ file = "" then none else some { options with file }

/-- Reads arguments that can only be files. -/
def Request.ofFiles (options : Options) : List String → Request
  | [] => .run options
  | arg :: rest =>
    match options.withFile? arg with
    | some options => ofFiles options rest
    | none => .misuse

/-- Reads arguments from left to right, up to the first one that settles the request. A double dash
ends the options, a single dash is a file, and a flag is given at most once. -/
def Request.ofArgs (options : Options) : List String → Request
  | [] => .run options
  | arg :: rest =>
    if arg = "--" then ofFiles options rest
    else if arg = "--ast" then
      if options.showProgram then .misuse else ofArgs { options with showProgram := true } rest
    else if arg = "--no-host" then
      if options.noHost then .misuse else ofArgs { options with noHost := true } rest
    else if arg = "--version" ∨ arg.startsWith "-V" then .version
    else if arg = "--help" ∨ arg.startsWith "-h" then .help
    else if arg.startsWith "-" ∧ arg ≠ "-" then .misuse
    else
      match options.withFile? arg with
      | some options => ofArgs options rest
      | none => .misuse

/-- The request of a list of arguments. -/
def Request.read (args : List String) : Request :=
  ofArgs ⟨none, false, false⟩ args

/-- What a run leaves behind: exit status, output, error output and files. -/
structure Report where
  exitCode : Nat
  out : ByteArray
  err : String
  files : Host.Directory

/-- The exit status of a misused command line. -/
def misuseCode : Nat := 2

/-- How the command line is used. -/
def usage : String := "Usage: monkey [--ast] [--no-host] [FILE]\n"

/-- Runs the file or the interactive session of the options. -/
def start (fuel : Nat) (options : Options) : Eval (Except Shell.Failure Unit) := do
  let shell ← Shell.create options.showProgram !options.noHost
  match options.file with
  | some file => (shell.runFile fuel file).run
  | none => ((shell.interact fuel).adapt Shell.Failure.console).run

/-- Runs the program with its arguments on an input and a working directory, unless it has no
answer. -/
def execute (fuel : Nat) (args : List String) (input : List UInt8) (files : Host.Directory) :
    Option Report :=
  match Request.read args with
  | .version => some ⟨0, "monkey 0.1.0\n".toUTF8, "", files⟩
  | .help => some ⟨0, usage.toUTF8, "", files⟩
  | .misuse => some ⟨misuseCode, .empty, usage, files⟩
  | .run options => do
    let (result, world) ← (start fuel options).run (.initial (.ofInput input) files)
    let (exitCode, err) := match result with
      | .ok () => (0, "")
      | .error failure => (failure.exitCode, "monkey: " ++ failure.message ++ "\n")
    return ⟨exitCode, world.console.output, err, world.files⟩

end Monkey.CommandLine
