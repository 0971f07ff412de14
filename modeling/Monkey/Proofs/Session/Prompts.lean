import Monkey.Proofs.Evaluation.Twins
import Monkey.Proofs.Session.Confinement

/-! # Prompts

An interactive session goes from prompt to prompt, with one round between two of them (`Prompts`).
Up to a prompt it does the same with two consoles that differ in input that it has not read there,
and what it does from a prompt on does not depend on its output. More fuel does not change it.
-/

namespace Monkey

open Host

/-! ## More fuel -/

section

variable {α β ε : Type} {first second : Eval α}

/-- The second computation has the answers of the first. -/
def Eval.Within (first second : Eval α) : Prop :=
  ∀ world reply, first.run world = some reply → second.run world = some reply

namespace Eval.Within

theorem refl (computation : Eval α) : Within computation computation :=
  fun _ _ => id

theorem bind {next next' : α → Eval β} (hfirst : Within first second)
    (hnext : ∀ a, Within (next a) (next' a)) : Within (first >>= next) (second >>= next') := by
  intro world reply hrun
  rw [StateT.run_bind] at hrun ⊢
  obtain ⟨middle, hmiddle, hrest⟩ := Option.bind_eq_some_iff.mp hrun
  exact Option.bind_eq_some_iff.mpr ⟨middle, hfirst _ _ hmiddle, hnext _ _ _ hrest⟩

theorem bindOk {first second : ExceptT ε Eval α} {next next' : α → ExceptT ε Eval β}
    (hfirst : Within first.run second.run) (hnext : ∀ a, Within (next a).run (next' a).run) :
    Within (first >>= next).run (second >>= next').run := by
  rw [ExceptT.run_bind, ExceptT.run_bind]
  refine hfirst.bind fun result => ?_
  cases result with
  | error failure => exact refl _
  | ok a => exact hnext a

theorem lift (hfirst : Within first second) :
    Within (ExceptT.lift first : ExceptT ε Eval α).run (ExceptT.lift second).run := by
  change Within (Except.ok <$> first) (Except.ok <$> second)
  rw [map_eq_pure_bind, map_eq_pure_bind]
  exact hfirst.bind fun _ => refl _

end Eval.Within

theorem Session.within_evalProgram (session : Session) (fuel : Nat) (frame : FrameRef)
    (p : Program) :
    (session.evalProgram fuel frame p).Within (session.evalProgram (fuel + 1) frame p) := by
  intro world reply hrun
  exact map_one_eq_some.mp (Task.run_mono (Nat.le_succ fuel) (Session.run_program hrun))

end

/-! ## Rounds -/

namespace Shell

/-- Deals with a line. The session goes on unless the line asks to leave or the input has ended. -/
def serve (fuel : Nat) (shell : Shell) : Option String → Printing Bool
  | none => return false
  | some line =>
    let source := Text.trim line
    if source = "exit" ∨ source = "e" then
      return false
    else if source = "" then
      return true
    else do
      let _ ← shell.run fuel source
      return true

/-- The shell either has its answer to a line at once, or runs the line and goes on. -/
theorem serve_cases (shell : Shell) (line : Option String) :
    (∃ more, ∀ fuel, shell.serve fuel line = pure more) ∨
      ∃ source, ∀ fuel, shell.serve fuel line = shell.run fuel source >>= fun _ => pure true := by
  cases line with
  | none => exact .inl ⟨false, fun _ => rfl⟩
  | some line =>
      by_cases hexit : Text.trim line = "exit" ∨ Text.trim line = "e"
      · exact .inl ⟨false, fun _ => if_pos hexit⟩
      · by_cases hblank : Text.trim line = ""
        · exact .inl ⟨true, fun _ => (if_neg hexit).trans (if_pos hblank)⟩
        · exact .inr ⟨Text.trim line, fun _ => (if_neg hexit).trans (if_neg hblank)⟩

/-- One round of an interactive session. -/
def round (fuel : Nat) (shell : Shell) : Printing Bool := do
  Printing.write prompt
  shell.serve fuel (← Printing.readLine)

theorem lines_succ (fuel : Nat) (shell : Shell) : lines (fuel + 1) shell =
    round fuel shell >>= fun more => if more then lines fuel shell else pure () := by
  rw [lines, round, bind_assoc]
  refine congrArg _ (funext fun _ => ?_)
  rw [bind_assoc]
  refine congrArg _ (funext fun line => ?_)
  cases line with
  | none => rfl
  | some line =>
      simp only [serve]
      split
      · rfl
      · split
        · rfl
        · rw [bind_assoc]
          rfl

/-- The session comes to a prompt in a world, with some of its fuel left. -/
inductive Prompts (shell : Shell) (fuel : Nat) (start : World) : Nat → World → Prop
  | first {world}
    (hbanner : (Printing.writeLine banner).run.run start = some (.ok (), world)) :
    Prompts shell fuel start fuel world
  | next {left world world'} (hprompts : Prompts shell fuel start (left + 1) world)
    (hround : (round left shell).run.run world = some (.ok true, world')) :
    Prompts shell fuel start left world'

section

variable {shell : Shell} {fuel left : Nat} {start world : World}

/-- What remains of a session at a prompt. -/
theorem Prompts.run_interact (hprompts : shell.Prompts fuel start left world) :
    (shell.interact fuel).run.run start = (lines left shell).run.run world := by
  induction hprompts with
  | first hbanner => rw [interact, run_bind, hbanner]
  | next _ hround ih =>
      rw [ih, lines_succ, run_bind, hround]
      rfl

/-! ## Sessions with two consoles -/

theorem mirrored_run (hsession : shell.session.Closed) (fuel : Nat) (source : String) :
    Mirrored (shell.run fuel source).run :=
  Mirrored.printing.run ((hsession.mirrors fuel).program _ _).lift

theorem mirrored_round (hsession : shell.session.Closed) (fuel : Nat) :
    Mirrored (round fuel shell).run := by
  refine (Mirrored.write _).bindOk fun _ => Mirrored.readLine.bindOk fun line => ?_
  obtain ⟨more, hserve⟩ | ⟨source, hserve⟩ := shell.serve_cases line
  · rw [hserve]
    exact .pure _
  · rw [hserve]
    exact (mirrored_run hsession fuel source).bindOk fun _ => .pure _

theorem mirrored_lines (hsession : shell.session.Closed) (fuel : Nat) :
    Mirrored (lines fuel shell).run := by
  induction fuel with
  | zero => exact Mirrored.failure.lift
  | succ fuel ih =>
      rw [lines_succ]
      refine (mirrored_round hsession fuel).bindOk fun more => ?_
      cases more with
      | true => exact ih
      | false => exact .pure _

/-- A session with another console comes to the same prompts. -/
theorem Prompts.mirrors {start' : World} {δ : Difference} (hsession : shell.session.Closed)
    (hprompts : shell.Prompts fuel start left world) (htwin : start.Twin δ start')
    (hintact : δ.rest.length ≤ world.console.input.length) :
    ∃ world', shell.Prompts fuel start' left world' ∧ world.Twin δ world' := by
  induction hprompts with
  | first hbanner =>
      obtain ⟨world', hbanner', htwin'⟩ := (Mirrored.write _).mirrors htwin hbanner hintact
      exact ⟨world', .first hbanner', htwin'⟩
  | @next left middle world _ hround ih =>
      have hmirrored := mirrored_round hsession left
      have hless := (hmirrored.leftOf hround).length_le
      obtain ⟨middle', hprompts', htwin'⟩ := ih (Nat.le_trans hintact hless)
      obtain ⟨world', hround', htwin''⟩ := hmirrored.mirrors htwin' hround hintact
      exact ⟨world', hprompts'.next hround', htwin''⟩

theorem Prompts.leftOf (hsession : shell.session.Closed)
    (hprompts : shell.Prompts fuel start left world) :
    LeftOf world.console.input start.console.input := by
  induction hprompts with
  | first hbanner => exact (Mirrored.write _).leftOf hbanner
  | next _ hround ih => exact ((mirrored_round hsession _).leftOf hround).trans ih

/-! ## Sessions with more fuel -/

theorem within_run (shell : Shell) (fuel : Nat) (source : String) :
    (shell.run fuel source).run.Within (shell.run (fuel + 1) source).run := by
  cases haccept : (parse source).diagnostics.isEmpty with
  | true =>
      rw [run_of_accepted haccept, run_of_accepted haccept]
      refine Eval.Within.bindOk (.refl _) fun _ => ?_
      exact (shell.session.within_evalProgram fuel _ _).lift.bindOk fun _ => .refl _
  | false =>
      rw [run_of_rejected haccept, run_of_rejected haccept]
      exact .refl _

theorem within_round (shell : Shell) (fuel : Nat) :
    (round fuel shell).run.Within (round (fuel + 1) shell).run := by
  refine Eval.Within.bindOk (.refl _) fun _ => Eval.Within.bindOk (.refl _) fun line => ?_
  obtain ⟨more, hserve⟩ | ⟨source, hserve⟩ := shell.serve_cases line
  · rw [hserve, hserve]
    exact .refl _
  · rw [hserve, hserve]
    exact (within_run shell fuel source).bindOk fun _ => .refl _

theorem within_lines (shell : Shell) (fuel : Nat) :
    (lines fuel shell).run.Within (lines (fuel + 1) shell).run := by
  induction fuel with
  | zero => exact nofun
  | succ fuel ih =>
      rw [lines_succ, lines_succ]
      refine (within_round shell fuel).bindOk fun more => ?_
      cases more with
      | true => exact ih
      | false => exact .refl _

end

end Shell

end Monkey
