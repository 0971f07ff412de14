import Monkey.Proofs.Computation
import Monkey.Shell

/-! # Runs of the shell

The shell lists what is wrong with a source, or it prints the program if asked to, evaluates it and
shows its value. What the evaluation and the steps of printing have in common, a run has too
(`Printing.Rules.run`).
-/

namespace Monkey

namespace Shell

variable {shell : Shell} {fuel : Nat} {source : String}

/-- Prints the program if asked to. -/
def echo (shell : Shell) (source : String) : Printing Unit :=
  if shell.showProgram then Printing.writeLine (parse source).program.render else pure ()

/-- Prints a value unless it is null. -/
def display (value : Value) : Printing Outcome := do
  if value.kind ≠ .null then
    Printing.valueLine value
  return .evaluated value

theorem display_of_null {value : Value} (hnull : value.kind = .null) :
    display value = pure (.evaluated value) :=
  if_neg (not_not_intro hnull)

theorem display_of_ne {value : Value} (hnull : value.kind ≠ .null) :
    display value = Printing.valueLine value >>= fun _ => pure (.evaluated value) :=
  if_pos hnull

theorem run_of_accepted (haccept : (parse source).diagnostics.isEmpty = true) :
    shell.run fuel source = (do
      shell.echo source
      let value ← Printing.ofEval
        (shell.session.evalProgram fuel shell.session.top (parse source).program)
      display value) := by
  obtain ⟨session, showProgram⟩ := shell
  unfold Shell.run
  simp only [haccept, if_true]
  cases showProgram with
  | true => rfl
  | false => rfl

theorem run_of_rejected (hreject : (parse source).diagnostics.isEmpty = false) :
    shell.run fuel source = do
      Printing.diagnostics (parse source).diagnostics
      return .rejected (parse source).diagnostics := by
  unfold Shell.run
  simp only [hreject, Bool.false_eq_true, if_false]

end Shell

namespace Printing.Rules

variable {P : (α : Type) → Printing α → Prop} (rules : Rules P)

include rules

theorem echo (shell : Shell) (source : String) : P _ (shell.echo source) := by
  unfold Shell.echo
  split
  · exact rules.write _
  · exact rules.pure _

theorem display (value : Value) : P _ (Shell.display value) := by
  by_cases hnull : value.kind = .null
  · rw [Shell.display_of_null hnull]
    exact rules.pure _
  · rw [Shell.display_of_ne hnull]
    exact rules.bind (rules.valueLine value) fun _ => rules.pure _

theorem run {shell : Shell} {fuel : Nat} {source : String}
    (heval : P _ (ofEval
      (shell.session.evalProgram fuel shell.session.top (parse source).program))) :
    P _ (shell.run fuel source) := by
  cases haccept : (parse source).diagnostics.isEmpty with
  | true =>
      rw [Shell.run_of_accepted haccept]
      refine rules.bind (rules.echo shell source) fun _ => ?_
      exact rules.bind heval rules.display
  | false =>
      rw [Shell.run_of_rejected haccept]
      exact rules.bind (rules.diagnostics _) fun _ => rules.pure _

end Printing.Rules

end Monkey
