import Monkey.Proofs.Evaluation.Failure
import Monkey.Proofs.Evaluation.Lines
import Monkey.Proofs.Program.RoundTrip
import Monkey.Proofs.Session.Prompts

/-! # Refused writes are reported

A script sees a refused write as an error value. Without loops this error is the value of the
program, and showing it fails too, since the console is shut. So the shell reports every refused
write, whoever has made it: a file run ends with the failure of the console, and an interactive
session stops.
-/

namespace Monkey

namespace Shell

variable {shell : Shell} {source : String} {world world' : World} {fuel : Nat}

/-- The console refuses a text while the shell runs the source: of the diagnostics, of the program
that is shown first, of a call at any depth or of the value. -/
inductive WriteRefused (shell : Shell) (source : String) (world : World) : Prop
  | listing {failure console} (hreject : (parse source).diagnostics.isEmpty = false)
    (hprint : world.console.print (listing (parse source).diagnostics) =
      (.error failure, console))
  | echo {failure world'} (haccept : (parse source).diagnostics.isEmpty = true)
    (hecho : (shell.echo source).run.run world = some (.error failure, world'))
  | call {start session builtin args middle}
    (haccept : (parse source).diagnostics.isEmpty = true)
    (hecho : (shell.echo source).run.run world = some (.ok (), start))
    (hbegins : (shell.session.plan start
      (.program shell.session.top (parse source).program)).Begins session
        (.apply (.builtin builtin) args) middle)
    (hrefused : builtin.Refused middle args)
  | value {start value middle depth failure console}
    (haccept : (parse source).diagnostics.isEmpty = true)
    (hecho : (shell.echo source).run.run world = some (.ok (), start))
    (hends : (shell.session.plan start
      (.program shell.session.top (parse source).program)).Ends (.one value) middle)
    (hnull : value.kind ≠ .null)
    (hwrite : middle.console.writeAll (middle.memory.excerptLine depth value).texts =
      (.error failure, console))

theorem run_display_refused {value : Value} {depth : Nat} {failure : Host.Failure}
    {console : Host.Console} (hnull : value.kind ≠ .null)
    (hwrite : world.console.writeAll (world.memory.excerptLine depth value).texts =
      (.error failure, console)) :
    (display value).run.run world = some (.error failure, { world with console }) := by
  rw [display_of_ne hnull, run_bind, run_valueLine, Excerpt.answer,
    (Memory.deepens_excerptLine value).refused hwrite]

theorem memory_of_echo {result : Except Host.Failure Unit}
    (hecho : (shell.echo source).run.run world = some (result, world')) :
    world'.memory = world.memory := by
  rw [prints_echo] at hecho
  cases hecho
  rfl

/-- A value that the console refuses makes the run fail. -/
theorem run_of_refused_value {start middle : World} {value : Value} {depth : Nat}
    {failure : Host.Failure} {console : Host.Console}
    (haccept : (parse source).diagnostics.isEmpty = true)
    (hecho : (shell.echo source).run.run world = some (.ok (), start))
    (hends : (shell.session.plan start
      (.program shell.session.top (parse source).program)).Ends (.one value) middle)
    (hnull : value.kind ≠ .null)
    (hwrite : middle.console.writeAll (middle.memory.excerptLine depth value).texts =
      (.error failure, console)) :
    ∃ enough, ∀ fuel, enough ≤ fuel → (shell.run fuel source).run.run world =
      some (.error failure, { middle with console }) := by
  obtain ⟨enough, heval⟩ := Session.exists_run_of_ends hends
  refine ⟨enough, fun fuel hle => ?_⟩
  rw [run_of_accepted haccept, run_bind, hecho]
  dsimp only
  rw [run_bind, run_ofEval, heval fuel hle]
  exact run_display_refused hnull hwrite

/-- Whatever write is refused, the run fails, given enough fuel. -/
theorem WriteRefused.run (hrefused : shell.WriteRefused source world)
    (hsession : shell.session.Closed) (hsource : Dialect.loopFree.block (parse source).program)
    (hheld : ∀ ref function, world.memory.Held shell.session.top (.value (.function ref)) →
      world.memory.function? ref = some function →
        Dialect.loopFree.expr (.function function.params function.body))
    (hlines : ∀ start, (shell.echo source).run.run world = some (.ok (), start) →
      Dialect.loopFree.Hears (shell.session.plan start
        (.program shell.session.top (parse source).program))) :
    ∃ world' enough, ∀ fuel, enough ≤ fuel →
      (shell.run fuel source).run.run world = some (.error .outputClosed, world') := by
  cases hrefused with
  | @listing _ console hreject hprint =>
      obtain ⟨rfl, -⟩ := Host.Console.shut_of_writeAll hprint
      refine ⟨{ world with console }, 0, fun fuel _ => ?_⟩
      rw [run_of_rejected hreject, run_bind, prints_diagnostics, hprint]
  | @echo _ world' haccept hecho =>
      refine ⟨world', 0, fun fuel _ => ?_⟩
      rw [run_of_accepted haccept, run_bind, hecho]
      rw [prints_echo] at hecho
      obtain ⟨hresult, -⟩ := Prod.mk.inj (Option.some.inj hecho)
      obtain ⟨rfl, -⟩ := Host.Console.shut_of_writeAll (Prod.ext hresult rfl)
      rfl
  | @call start _ _ _ _ haccept hecho hbegins hrefused =>
      have hcovers : Dialect.loopFree.Covers (.held world.memory shell.session.top)
          start.memory := by
        rw [memory_of_echo hecho]
        exact Dialect.covers_held hheld
      have hrequires : (Dialect.loopFree.speech (.held world.memory shell.session.top)).requires
          shell.session (.program shell.session.top (parse source).program) start :=
        ⟨Dialect.ready_held hsession hsource, hcovers, (hlines start hecho).program⟩
      obtain ⟨middle, hshut, hends⟩ := ends_of_refused hrequires hbegins hrefused
      -- The error is shown in one piece, which is refused.
      have hwrite : (middle.console.writeAll (middle.memory.excerptLine 0
          (.error (Fault.message (.console .outputClosed)))).texts).1 = .error .outputClosed :=
        hshut.writeAll (by decide +kernel) _
      obtain ⟨enough, hrun⟩ :=
        run_of_refused_value haccept hecho hends nofun (Prod.ext hwrite rfl)
      exact ⟨_, enough, hrun⟩
  | value haccept hecho hends hnull hwrite =>
      obtain ⟨rfl, -⟩ := Host.Console.shut_of_writeAll hwrite
      obtain ⟨enough, hrun⟩ := run_of_refused_value haccept hecho hends hnull hwrite
      exact ⟨_, enough, hrun⟩

/-! ## Files and interactive sessions -/

theorem run_mono {fuel' : Nat} (hle : fuel ≤ fuel') {reply : Except Host.Failure Outcome × World}
    (hrun : (shell.run fuel source).run.run world = some reply) :
    (shell.run fuel' source).run.run world = some reply := by
  induction hle with
  | refl => exact hrun
  | step _ ih => exact within_run shell _ source world reply ih

theorem runFile_of_run {path : String} {failure : Host.Failure}
    (hfile : world.files.readText path = .ok source)
    (hrun : (shell.run fuel source).run.run world = some (.error failure, world')) :
    (shell.runFile fuel path).run.run world = some (.error (.console failure), world') := by
  have hget : (get : ExceptT Failure Eval World).run.run world = some (.ok world, world) := rfl
  have hadapt : ((shell.run fuel source).adapt Failure.console).run.run world =
      some (.error (.console failure), world') := by
    change (Except.mapError Failure.console <$> (shell.run fuel source).run).run world = _
    rw [StateT.run_map, hrun]
    rfl
  rw [runFile, run_bind, hget]
  dsimp only
  rw [hfile]
  dsimp only
  rw [run_bind, hadapt]

/-- An interactive session stops at a line that cannot be run. -/
theorem lines_of_run {before : World} {line : String} {failure : Host.Failure}
    (hread : (Printing.write prompt >>= fun _ => Printing.readLine).run.run before =
      some (.ok (some line), world))
    (hexit : ¬ (Text.trim line = "exit" ∨ Text.trim line = "e")) (hblank : Text.trim line ≠ "")
    (hrun : (shell.run fuel (Text.trim line)).run.run world = some (.error failure, world')) :
    (lines (fuel + 1) shell).run.run before = some (.error failure, world') := by
  have hserve : shell.serve fuel (some line) =
      shell.run fuel (Text.trim line) >>= fun _ => pure true :=
    (if_neg hexit).trans (if_neg hblank)
  have hround : (round fuel shell).run.run before = some (.error failure, world') := by
    change (Printing.write prompt >>= fun _ => Printing.readLine >>= shell.serve fuel).run.run _ = _
    rw [← bind_assoc, run_bind, hread]
    dsimp only
    rw [hserve, run_bind, hrun]
  rw [lines_succ, run_bind, hround]

/-- A refused write is never lost in code without loops, be it in the source, in the functions that
the session holds or in the lines that `get` evaluates: if the console refuses a text while the
shell runs a source, at whatever depth, then every run of the source fails because of the closed
output, given enough fuel, and no run answers anything else. So a file run ends with the failure of
the console and its exit status, and an interactive session stops at the line. -/
theorem refused_write_reported (hsession : shell.session.Closed)
    (hsource : Dialect.loopFree.block (parse source).program)
    (hheld : ∀ ref function, world.memory.Held shell.session.top (.value (.function ref)) →
      world.memory.function? ref = some function →
        Dialect.loopFree.expr (.function function.params function.body))
    (hlines : ∀ start, (shell.echo source).run.run world = some (.ok (), start) →
      Dialect.loopFree.Hears (shell.session.plan start
        (.program shell.session.top (parse source).program)))
    (hrefused : shell.WriteRefused source world) :
    ∃ world' enough,
      (∀ fuel, enough ≤ fuel →
        (shell.run fuel source).run.run world = some (.error .outputClosed, world')) ∧
      (∀ fuel reply, (shell.run fuel source).run.run world = some reply →
        reply = (.error .outputClosed, world')) ∧
      (∀ fuel path, enough ≤ fuel → world.files.readText path = .ok source →
        (shell.runFile fuel path).run.run world =
          some (.error (.console .outputClosed), world')) ∧
      (Failure.console .outputClosed).exitCode = 74 ∧
      ∀ fuel total start before line, enough ≤ fuel →
        shell.Prompts total start (fuel + 1) before →
        (Printing.write prompt >>= fun _ => Printing.readLine).run.run before =
          some (.ok (some line), world) →
        Text.trim line = source → source ≠ "" → source ≠ "exit" → source ≠ "e" →
          (shell.interact total).run.run start = some (.error .outputClosed, world') := by
  obtain ⟨world', enough, hrun⟩ := hrefused.run hsession hsource hheld hlines
  refine ⟨world', enough, hrun, ?_, ?_, rfl, ?_⟩
  · intro fuel reply hreply
    have hmost := run_mono (Nat.le_max_left fuel enough) hreply
    rw [hrun _ (Nat.le_max_right fuel enough)] at hmost
    exact (Option.some.inj hmost).symm
  · intro fuel path hle hfile
    exact runFile_of_run hfile (hrun fuel hle)
  · rintro fuel total start before line hle hprompts hread rfl hblank hexit he
    rw [hprompts.run_interact]
    exact lines_of_run hread (not_or.mpr ⟨hexit, he⟩) hblank (hrun fuel hle)

/-- A world with room for three bytes of output. Nobody holds its function any more. -/
def narrow : World :=
  let forgotten : Function := ⟨[], [.expr (.loop (.bool true) [])], ⟨0⟩⟩
  { World.fresh with
    memory := (World.fresh.memory.newFunction forgotten).2
    console := ⟨[], .empty, some 3⟩ }

/-- The world with an array of one number. -/
def untied : World :=
  { narrow with memory := (narrow.memory.newArray #[.integer 1]).2.bind ⟨0⟩ "a" (.array ⟨0⟩) }

/-- The world in which the array also contains itself. -/
def tied : World :=
  { untied with memory := untied.memory.append ⟨0⟩ (.array ⟨0⟩) }

/-- An array that contains itself is printed. -/
def endless : Program :=
  [.bind "a" (.array [.int 1]),
    .expr (.call (.ident "add") [.ident "a", .ident "a"]),
    .expr (.call (.ident "put") [.ident "a"])]

/-- The text of the program. -/
def endlessText : String := "let a = [1];\nadd(a,a);\nput(a)"

theorem parse_endlessText : parse endlessText = ⟨endless, []⟩ := by
  have hletter : Token.IsName "a" :=
    ⟨⟨'a', [], rfl, by simp [Text.isAlphabetic], by simp⟩, by decide +kernel⟩
  have hadd : Token.IsName "add" :=
    ⟨⟨'a', ['d', 'd'], rfl, by simp [Text.isAlphabetic],
      by simp [Text.isAlphanumeric, Text.isAlphabetic]⟩, by decide +kernel⟩
  have hput : Token.IsName "put" :=
    ⟨⟨'p', ['u', 't'], rfl, by simp [Text.isAlphabetic],
      by simp [Text.isAlphanumeric, Text.isAlphabetic]⟩, by decide +kernel⟩
  have hone : (Expr.int 1).Spellable := by
    change 0 ≤ (1 : Int64).toInt
    decide +kernel
  have hspellable : SpellableStmts endless :=
    ⟨⟨hletter, hone, trivial⟩, ⟨hadd, hletter, hletter, trivial⟩, ⟨hput, hletter, trivial⟩, trivial⟩
  have htext : Program.render endless = endlessText := by decide +kernel
  rw [← htext]
  exact SpellableStmts.parse_render hspellable

/-- The top frame leads nowhere. -/
theorem held_narrow {item : Memory.Item} (hheld : narrow.memory.Held ⟨0⟩ item) :
    item = .frame ⟨0⟩ := by
  induction hheld with
  | root => rfl
  | outer _ hframe houter ih =>
      cases ih
      cases hframe
      cases houter
  | bound _ hframe hget ih =>
      cases ih
      cases hframe
      cases hget
  | element _ _ ih | captured _ _ ih | carried _ ih => cases ih

theorem begins_put :
    (Session.hosted.plan narrow (.program ⟨0⟩ endless)).Begins .hosted
      (.apply (.builtin .put) [.array ⟨0⟩]) tied := by
  have hbind : Task.run 4 .hosted narrow (.stmt ⟨0⟩ (.bind "a" (.array [.int 1]))) =
      some (.one .null, untied) := rfl
  have hadd : Task.run 6 .hosted untied
      (.stmt ⟨0⟩ (.expr (.call (.ident "add") [.ident "a", .ident "a"]))) =
        some (.one .null, tied) := rfl
  have hcallee : Task.run 1 .hosted tied (.expr ⟨0⟩ (.ident "put")) =
      some (.one (.builtin .put), tied) := rfl
  have hargs : Task.run 2 .hosted tied (.exprs ⟨0⟩ [.ident "a"]) =
      some (.many [.array ⟨0⟩], tied) := rfl
  exact .inside (.after (Task.ends_of_run hbind) (.inside (.after (Task.ends_of_run hadd)
    (.inside (.inside (.inside (.after (Task.ends_of_run hcallee)
      (.after (Task.ends_of_run hargs) .here))))))))

/-- The display of an array that contains itself has no end, but only three bytes fit. -/
theorem refused_write_reported_endless :
    (⟨.hosted, false⟩ : Shell).WriteRefused endlessText narrow ∧
      ∃ world' enough, ∀ fuel, enough ≤ fuel →
        ((⟨.hosted, false⟩ : Shell).run fuel endlessText).run.run narrow =
          some (.error .outputClosed, world') := by
  have hwrite : (tied.console.writeAll
      (tied.memory.excerptLines 3 [.array ⟨0⟩]).texts).1 = .error .outputClosed := by
    decide +kernel
  have hbegins : (Session.hosted.plan narrow
      (.program ⟨0⟩ (parse endlessText).program)).Begins .hosted
        (.apply (.builtin .put) [.array ⟨0⟩]) tied := by
    rw [parse_endlessText]
    exact begins_put
  have haccept : (parse endlessText).diagnostics.isEmpty = true := by
    rw [parse_endlessText]
    rfl
  have hrefused : (⟨.hosted, false⟩ : Shell).WriteRefused endlessText narrow :=
    .call haccept rfl hbegins (.put (Prod.ext hwrite rfl))
  have hsource : Dialect.loopFree.block (parse endlessText).program := by
    rw [parse_endlessText]
    exact Dialect.block_ofChecks rfl
  have hsession : Session.hosted.Closed := rfl
  have hlines : ∀ start, ((⟨.hosted, false⟩ : Shell).echo endlessText).run.run narrow =
      some (.ok (), start) → Dialect.loopFree.Hears (Session.hosted.plan start
        (.program ⟨0⟩ (parse endlessText).program)) := by
    rintro start ⟨⟩
    exact Dialect.hears_of_input hsession rfl
  have hheld : ∀ ref function, narrow.memory.Held ⟨0⟩ (.value (.function ref)) →
      narrow.memory.function? ref = some function →
        Dialect.loopFree.expr (.function function.params function.body) := by
    intro ref function hheld
    cases held_narrow hheld
  obtain ⟨world', enough, hrun, -⟩ :=
    refused_write_reported hsession hsource hheld hlines hrefused
  exact ⟨hrefused, world', enough, hrun⟩

end Shell

end Monkey
