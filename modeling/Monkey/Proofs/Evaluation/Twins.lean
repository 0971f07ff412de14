import Monkey.Proofs.Builtin.Rules
import Monkey.Proofs.Evaluation.WellFormed
import Monkey.Proofs.Host.Console

/-! # Evaluation with two consoles

Evaluation reads its input from the front, line by line, and never looks at its output. So it does
the same with two consoles that differ in input that it does not come to and in output from before
(`Session.Closed.mirrors`).
-/

namespace Monkey

open Host

/-- The worlds differ in their consoles only, and there only where they may. -/
structure World.Twin (δ : Difference) (world world' : World) : Prop where
  memory : world'.memory = world.memory
  files : world'.files = world.files
  console : world.console.Twin δ world'.console

/-- The computation reads whole lines from the front of the input. It has the same result in two
worlds that differ in their consoles, unless it comes to input that the first does not share with
the second. -/
structure Mirrored {α : Type} (computation : Eval α) : Prop where
  leftOf : ∀ {world a after}, computation.run world = some (a, after) →
    LeftOf after.console.input world.console.input
  mirrors : ∀ {δ world world' a after}, world.Twin δ world' →
    computation.run world = some (a, after) → δ.rest.length ≤ after.console.input.length →
      ∃ after', computation.run world' = some (a, after') ∧ after.Twin δ after'

namespace Mirrored

variable {α β ε ε' : Type} {computation : Eval α}

/-! ## Computations in sequence -/

theorem pure (a : α) : Mirrored (Pure.pure a : Eval α) where
  leftOf := by
    rintro world _ after ⟨⟩
    exact .refl _
  mirrors := by
    rintro δ world world' _ after htwin ⟨⟩ -
    exact ⟨world', rfl, htwin⟩

theorem failure : Mirrored (failure : Eval α) where
  leftOf := nofun
  mirrors _ := nofun

theorem bind {next : α → Eval β} (hfirst : Mirrored computation)
    (hnext : ∀ a, Mirrored (next a)) : Mirrored (computation >>= next) where
  leftOf := by
    intro world b after hrun
    rw [StateT.run_bind] at hrun
    obtain ⟨⟨a, middle⟩, hmiddle, hrest⟩ := Option.bind_eq_some_iff.mp hrun
    exact ((hnext a).leftOf hrest).trans (hfirst.leftOf hmiddle)
  mirrors := by
    intro δ world world' b after htwin hrun hintact
    rw [StateT.run_bind] at hrun
    obtain ⟨⟨a, middle⟩, hmiddle, hrest⟩ := Option.bind_eq_some_iff.mp hrun
    have hless := ((hnext a).leftOf hrest).length_le
    obtain ⟨middle', hmiddle', htwin'⟩ :=
      hfirst.mirrors htwin hmiddle (Nat.le_trans hintact hless)
    obtain ⟨after', hrest', htwin''⟩ := (hnext a).mirrors htwin' hrest hintact
    refine ⟨after', ?_, htwin''⟩
    rw [StateT.run_bind, hmiddle']
    exact hrest'

theorem map (f : α → β) (hcomputation : Mirrored computation) :
    Mirrored (f <$> computation) := by
  rw [map_eq_pure_bind]
  exact hcomputation.bind fun a => pure (f a)

theorem bindOk {first : ExceptT ε Eval α} {next : α → ExceptT ε Eval β}
    (hfirst : Mirrored first.run) (hnext : ∀ a, Mirrored (next a).run) :
    Mirrored (first >>= next).run := by
  rw [ExceptT.run_bind]
  refine hfirst.bind fun result => ?_
  cases result with
  | error failure => exact pure _
  | ok a => exact hnext a

theorem adapt {first : ExceptT ε Eval α} (hfirst : Mirrored first.run) (f : ε → ε') :
    Mirrored (first.adapt f).run :=
  hfirst.map (Except.mapError f)

theorem lift (hcomputation : Mirrored computation) :
    Mirrored (ExceptT.lift computation : ExceptT ε Eval α).run :=
  hcomputation.map Except.ok

theorem andThen {first : Eval Value} {next : Value → Eval Value} (hfirst : Mirrored first)
    (hnext : ∀ value, Mirrored (next value)) : Mirrored (Eval.andThen first next) := by
  refine hfirst.bind fun value => ?_
  split
  · exact pure _
  · exact hnext value

theorem withValues {several : Eval (Except Value (List Value))} {next : List Value → Eval Value}
    (hseveral : Mirrored several) (hnext : ∀ values, Mirrored (next values)) :
    Mirrored (do
      match ← several with
      | .ok values => next values
      | .error abrupt => return abrupt) := by
  refine hseveral.bind fun result => ?_
  cases result with
  | error abrupt => exact pure _
  | ok values => exact hnext values

/-! ## Single steps -/

/-- A step that does not use the console. -/
theorem apart (step : Memory → Directory → α × Memory × Directory)
    (hrun : ∀ world, computation.run world = some ((step world.memory world.files).1,
      { world with
        memory := (step world.memory world.files).2.1
        files := (step world.memory world.files).2.2 })) :
    Mirrored computation where
  leftOf := by
    intro world a after hafter
    rw [hrun] at hafter
    cases hafter
    exact .refl _
  mirrors := by
    rintro δ world ⟨_, console', _⟩ a after ⟨rfl, rfl, htwin⟩ hafter -
    rw [hrun] at hafter
    cases hafter
    exact ⟨_, hrun _, rfl, rfl, htwin⟩

theorem ofMemory (f : Memory → α) : Mirrored (Eval.ofMemory f) :=
  apart (fun memory files => (f memory, memory, files)) fun _ => rfl

theorem updateMemory (f : Memory → α × Memory) : Mirrored (Eval.updateMemory f) :=
  apart (fun memory files => ((f memory).1, (f memory).2, files)) fun _ => rfl

theorem newArray (elements : Array Value) : Mirrored (Eval.newArray elements) :=
  (updateMemory _).map _

theorem text (value : Value) : Mirrored (Eval.text value) := by
  refine (ofMemory _).bind fun text => ?_
  cases text with
  | none => exact failure
  | some text => exact pure text

theorem readFile (path : String) : Mirrored (Call.readFile path).run :=
  apart (fun memory files => ((files.readText path).mapError (.unreadable path), memory, files))
    (run_readFile path)

theorem writeFile (path text : String) : Mirrored (Call.writeFile path text).run :=
  apart (fun memory files =>
    (((files.write path text.toUTF8).map fun _ => ()).mapError (.unwritable path), memory,
      (files.write path text.toUTF8).toOption.getD files)) (run_writeFile path text)

theorem readLine : Mirrored Printing.readLine.run where
  leftOf := by
    rintro world _ _ ⟨⟩
    exact world.console.leftOf_readLine
  mirrors := by
    rintro δ world world' _ _ ⟨hmemory, hfiles, hconsole⟩ ⟨⟩ hintact
    obtain ⟨hline, htwin⟩ := hconsole.readLine hintact
    exact ⟨_, congrArg (fun line => some (line, _)) hline, hmemory, hfiles, htwin⟩

theorem write (text : String) : Mirrored (Printing.write text).run where
  leftOf := by
    rintro world _ _ ⟨⟩
    exact .refl _
  mirrors := by
    rintro δ world world' _ _ ⟨hmemory, hfiles, hconsole⟩ ⟨⟩ -
    obtain ⟨hresult, htwin⟩ := hconsole.write text
    exact ⟨_, congrArg (fun result => some (result, _)) hresult, hmemory, hfiles, htwin⟩

/-- Values are shown down to the same depth, as neither output is bounded. -/
theorem levels : Mirrored Eval.levels where
  leftOf := by
    rintro world _ _ ⟨⟩
    exact .refl _
  mirrors := by
    rintro δ world world' _ _ htwin ⟨⟩ -
    have hlevels : world'.levels = world.levels := by
      rw [World.levels, World.levels, htwin.memory, htwin.console.capacity, htwin.console.capacity']
    refine ⟨world', ?_, htwin⟩
    rw [← hlevels]
    rfl

/-! ## Builtin functions -/

theorem rules : Builtin.HostRules fun _ call => Mirrored call.run where
  pure _ := pure _
  bind := bindOk
  fail _ := pure _
  elements _ := (ofMemory _).lift
  text value := (text value).lift
  newArray elements := (newArray elements).lift
  append _ _ := (updateMemory _).lift
  readFile := readFile
  writeFile := writeFile
  write text := (write text).adapt _
  levels := levels.lift
  endless := failure.lift
  readLine := readLine.adapt _

/-- Whatever is printed. -/
theorem printing : Printing.Rules fun _ printing => Mirrored printing.run where
  pure _ := pure _
  bind := bindOk
  write := write
  text value := (text value).lift
  contents _ := (ofMemory _).lift
  levels := levels.lift
  endless := failure.lift

end Mirrored

/-! ## The evaluator -/

/-- Whatever is evaluated with the given fuel is evaluated in the same way with two consoles. -/
structure Session.Mirrors (fuel : Nat) (session : Session) : Prop where
  expr : ∀ frame e, Mirrored (session.evalExpr fuel frame e)
  exprs : ∀ frame es, Mirrored (session.evalExprs fuel frame es)
  loop : ∀ frame condition body collected,
    Mirrored (session.evalLoop fuel frame condition body collected)
  stmt : ∀ frame s, Mirrored (session.evalStmt fuel frame s)
  block : ∀ frame body value, Mirrored (session.evalBlock fuel frame body value)
  apply : ∀ callee args, Mirrored (session.apply fuel callee args)
  program : ∀ frame p, Mirrored (session.evalProgram fuel frame p)

namespace Session.Mirrors

open Mirrored

variable {fuel : Nat} {session : Session}

theorem zero : session.Mirrors 0 where
  expr _ _ := failure
  exprs _ _ := failure
  loop _ _ _ _ := failure
  stmt _ _ := failure
  block _ _ _ := failure
  apply _ _ := failure
  program _ _ := failure

theorem succ_expr (h : session.Mirrors fuel) (frame : FrameRef) (e : Expr) :
    Mirrored (session.evalExpr (fuel + 1) frame e) := by
  cases e with
  | ident name => exact ofMemory _
  | int | float | bool | string => exact pure _
  | array elements => exact (h.exprs frame elements).withValues fun _ => newArray _
  | unary op operand => exact (h.expr frame operand).andThen fun _ => pure _
  | binary op left right =>
      exact (h.expr frame left).andThen fun _ => (h.expr frame right).andThen fun _ => pure _
  | index collection index =>
      exact (h.expr frame collection).andThen fun _ => (h.expr frame index).andThen fun _ =>
        ofMemory _
  | conditional condition consequence alternative =>
      refine (h.expr frame condition).andThen fun decision => ?_
      split
      · exact h.block frame consequence .null
      · exact h.block frame _ .null
  | loop condition body => exact h.loop frame condition body #[]
  | function params body => exact (updateMemory _).map _
  | call callee args =>
      exact (h.expr frame callee).andThen fun f => (h.exprs frame args).withValues fun values =>
        h.apply f values

theorem succ_exprs (h : session.Mirrors fuel) (frame : FrameRef) (es : List Expr) :
    Mirrored (session.evalExprs (fuel + 1) frame es) := by
  cases es with
  | nil => exact pure _
  | cons first rest =>
      refine (h.expr frame first).bind fun value => ?_
      split
      · exact pure _
      · exact (h.exprs frame rest).bind fun _ => pure _

theorem succ_loop (h : session.Mirrors fuel) (frame : FrameRef) (condition : Expr) (body : Block)
    (collected : Array Value) :
    Mirrored (session.evalLoop (fuel + 1) frame condition body collected) := by
  refine (h.expr frame condition).andThen fun decision => ?_
  split
  · refine (h.block frame body .null).bind fun value => ?_
    cases value with
    | error message => exact newArray _
    | returned value => exact pure _
    | _ => exact h.loop frame condition body _
  · exact newArray _

theorem succ_stmt (h : session.Mirrors fuel) (frame : FrameRef) (s : Stmt) :
    Mirrored (session.evalStmt (fuel + 1) frame s) := by
  cases s with
  | bind name value => exact (h.expr frame value).andThen fun _ => updateMemory _
  | ret value => exact (h.expr frame value).andThen fun _ => pure _
  | expr value => exact h.expr frame value
  | block body => exact h.block frame body .null

theorem succ_block (h : session.Mirrors fuel) (frame : FrameRef) (body : Block) (value : Value) :
    Mirrored (session.evalBlock (fuel + 1) frame body value) := by
  cases body with
  | nil => exact pure _
  | cons first rest => exact (h.stmt frame first).andThen fun value => h.block frame rest value

theorem succ_apply (h : session.Mirrors fuel) (hsession : session.Closed)
    (hstandard : session.standard.Mirrors fuel) (callee : Value) (args : List Value) :
    Mirrored (session.apply (fuel + 1) callee args) := by
  cases callee with
  | function ref =>
      refine (ofMemory _).bind fun function => ?_
      cases function with
      | none => exact failure
      | some function =>
          by_cases harity : function.params.length = args.length
          · simp only [harity, if_true]
            refine (updateMemory _).bind fun frame => (updateMemory _).bind fun _ => ?_
            exact (h.block frame function.body .null).bind fun _ => pure _
          · simp only [harity, if_false]
            exact pure _
  | builtin builtin =>
      have hcall := rules.call (fun p => (hstandard.program session.top p).lift) builtin args
      rw [← hsession] at hcall
      exact hcall.map _
  | _ => exact pure _

theorem succ (hsession : session.Closed) (h : session.Mirrors fuel)
    (hstandard : session.standard.Mirrors fuel) : session.Mirrors (fuel + 1) where
  expr := h.succ_expr
  exprs := h.succ_exprs
  loop := h.succ_loop
  stmt := h.succ_stmt
  block := h.succ_block
  apply := h.succ_apply hsession hstandard
  program frame p := (h.block frame p .null).bind fun _ => pure _

end Session.Mirrors

/-- Evaluation does the same with two consoles as long as it does not come to what they do not
share. -/
theorem Session.Closed.mirrors {session : Session} (hsession : session.Closed)
    (fuel : Nat) : session.Mirrors fuel := by
  induction fuel generalizing session with
  | zero => exact .zero
  | succ fuel ih => exact .succ hsession (ih hsession) (ih hsession.standard)

end Monkey
