import Mathlib.Data.List.Forall2
import Monkey.Proofs.Evaluation.Confinement
import Monkey.Proofs.Host.Display
import Monkey.Proofs.Session

/-! # Sessions without host access

A shell without host access prints its own lines and nothing else: the program if asked to, its
value unless it is null, or what is wrong with a source. No script reads the input or reaches a
file. In a session with host access the same holds of the lines that `get` evaluates, as long as
nothing in memory is a host function.
-/

namespace Monkey

/-! ## What the shell prints -/

/-- The lines that the shell prints for a source: what is wrong with it, or the program if asked to
and then the text of its value if there is something to show. -/
def Shell.report (shell : Shell) (source : String) (shown : Option String) : List String :=
  if (parse source).diagnostics.isEmpty then
    (if shell.showProgram then [(parse source).program.render] else []) ++ shown.toList
  else
    "Parser errors:" :: (parse source).diagnostics.map fun d => "\t" ++ d.message

/-! ## Running a source -/

namespace Shell

/-- The shell runs the sources one after the other, and each run comes to an end. -/
inductive Serves (shell : Shell) : World → List String → World → Prop
  | nil {world} : Serves shell world [] world
  | cons {world middle world' fuel source sources result}
    (hrun : (shell.run fuel source).run.run world = some (result, middle))
    (hserves : Serves shell middle sources world') : Serves shell world (source :: sources) world'

variable {shell : Shell} {fuel : Nat} {source : String} {world world' : World}
  {result : Except Host.Failure Outcome}

/-- Running the source has printed the lines of the shell and nothing else. A line that shows a
value shows the value of the program by its text. Of an array that contains itself it shows as much
as the output has room for. -/
def Reports (shell : Shell) (fuel : Nat) (source : String) (world : World)
    (result : Except Host.Failure Outcome) (world' : World) : Prop :=
  ∃ shown : Option String,
    world.console.print (shell.report source shown) =
      (result.map fun _ => (), world'.console) ∧
    ∀ text, shown = some text → ∃ value console,
      (shell.session.evalProgram fuel shell.session.top (parse source).program).run
        { world with console } = some (value, { world' with console }) ∧
      value.kind ≠ .null ∧
      (world'.memory.text? value = some text ∨
        world'.memory.text? value = none ∧ (∃ failure, result = .error failure) ∧
          ∃ depth, text = (world'.memory.excerpt depth value).text)

/-- Nothing but the standard functions is in reach, by name or in memory. -/
structure Confined (shell : Shell) (memory : Memory) : Prop where
  closed : shell.session.Closed
  registry : shell.session.registry = .standard
  clean : memory.Clean

theorem reports_of_rejected (hreject : (parse source).diagnostics.isEmpty = false)
    (hrun : (shell.run fuel source).run.run world = some (result, world')) :
    world'.files = world.files ∧ world'.memory = world.memory ∧
      shell.Reports fuel source world result world' := by
  have hreport : shell.report source none = listing (parse source).diagnostics := by
    simp [report, listing, hreject]
  rw [run_of_rejected hreject, run_bind, prints_diagnostics, ← hreport] at hrun
  rcases hprint : world.console.print (shell.report source none) with ⟨failure | _, console⟩
  · rw [hprint] at hrun
    cases hrun
    exact ⟨rfl, rfl, none, hprint, nofun⟩
  · rw [hprint] at hrun
    cases hrun
    exact ⟨rfl, rfl, none, hprint, nofun⟩

theorem prints_echo (shell : Shell) (source : String) : Prints (shell.echo source)
    (if shell.showProgram then [(parse source).program.render] else []) := by
  unfold echo
  split
  · exact prints_writeLine _
  · exact prints_pure

theorem run_ofEval {α : Type} (evaluation : Eval α) (world : World) :
    (Printing.ofEval evaluation).run.run world = (evaluation.run world).map (.map .ok id) :=
  run_lift evaluation world

theorem run_display {value : Value}
    (hrun : (display value).run.run world = some (result, world')) :
    ∃ shown : Option String,
      world.console.print shown.toList = (result.map fun _ => (), world'.console) ∧
      world' = { world with console := world'.console } ∧
      ∀ text, shown = some text → value.kind ≠ .null ∧
        (world.memory.text? value = some text ∨
          world.memory.text? value = none ∧ (∃ failure, result = .error failure) ∧
            ∃ depth, text = (world.memory.excerpt depth value).text) := by
  by_cases hnull : value.kind = .null
  · rw [display_of_null hnull] at hrun
    cases hrun
    exact ⟨none, rfl, rfl, nofun⟩
  · rw [display_of_ne hnull, run_bind] at hrun
    rcases hline : (Printing.valueLine value).run.run world with _ | ⟨failure | _, middle⟩
    · rw [hline] at hrun
      cases hrun
    · rw [hline] at hrun
      cases hrun
      obtain ⟨shown, hprint, hworld, hshown⟩ := exists_print_of_valueLine hline
      refine ⟨some shown, hprint, hworld, ?_⟩
      rintro _ ⟨⟩
      exact ⟨hnull, hshown.imp_right fun ⟨htext, _, hdepth⟩ => ⟨htext, ⟨_, rfl⟩, hdepth⟩⟩
    · rw [hline] at hrun
      cases hrun
      obtain ⟨shown, hprint, hworld, hshown⟩ := exists_print_of_valueLine hline
      refine ⟨some shown, hprint, hworld, ?_⟩
      rintro _ ⟨⟩
      exact ⟨hnull, hshown.imp_right fun ⟨_, ⟨_, hfailed⟩, _⟩ => nomatch hfailed⟩

theorem reports_of_accepted (haccept : (parse source).diagnostics.isEmpty = true)
    (hshell : shell.Confined world.memory)
    (hrun : (shell.run fuel source).run.run world = some (result, world')) :
    world'.files = world.files ∧ world'.memory.Clean ∧
      shell.Reports fuel source world result world' := by
  have hreport (shown : Option String) : shell.report source shown =
      (if shell.showProgram then [(parse source).program.render] else []) ++ shown.toList := by
    simp [report, haccept]
  rw [run_of_accepted haccept, run_bind, prints_echo] at hrun
  rcases hecho : world.console.print
      (if shell.showProgram then [(parse source).program.render] else []) with
    ⟨failure | _, console⟩
  · rw [hecho] at hrun
    cases hrun
    refine ⟨rfl, hshell.clean, none, ?_, nofun⟩
    rw [hreport, Option.toList_none, List.append_nil, hecho]
    rfl
  · rw [hecho] at hrun
    dsimp only at hrun
    rw [run_bind, run_ofEval] at hrun
    rcases heval : (shell.session.evalProgram fuel shell.session.top (parse source).program).run
        { world with console } with _ | ⟨value, middle⟩
    · rw [heval] at hrun
      cases hrun
    · rw [heval] at hrun
      obtain ⟨shown, hprint, hworld, hshown⟩ := run_display hrun
      have hrequires : (confinement (console, world.files)).requires shell.session
          (.program shell.session.top (parse source).program) { world with console } :=
        ⟨hshell.closed, hshell.registry, rfl, hshell.clean, nofun⟩
      obtain ⟨-, houtside, hclean, -⟩ :=
        Session.ensures_of_evalProgram (kept_confinement _) hrequires heval
      obtain ⟨memory, _, files⟩ := middle
      obtain ⟨rfl, rfl⟩ := Prod.mk.inj houtside
      rw [hworld] at hprint ⊢
      refine ⟨rfl, hclean, shown, ?_, fun text htext => ?_⟩
      · rw [hreport, Host.Console.print_append, hecho]
        exact hprint
      · obtain ⟨hnull, htext⟩ := hshown text htext
        exact ⟨value, _, heval, hnull, htext⟩

/-- A shell with the standard functions only prints its own lines and leaves the files alone. -/
theorem Confined.run (hshell : shell.Confined world.memory)
    (hrun : (shell.run fuel source).run.run world = some (result, world')) :
    world'.files = world.files ∧ shell.Confined world'.memory ∧
      shell.Reports fuel source world result world' := by
  cases haccept : (parse source).diagnostics.isEmpty with
  | true =>
      obtain ⟨hfiles, hclean, hreports⟩ := reports_of_accepted haccept hshell hrun
      exact ⟨hfiles, { hshell with clean := hclean }, hreports⟩
  | false =>
      obtain ⟨hfiles, hmemory, hreports⟩ := reports_of_rejected haccept hrun
      exact ⟨hfiles, { hshell with clean := hmemory ▸ hshell.clean }, hreports⟩

theorem Reports.input_eq (hreports : shell.Reports fuel source world result world') :
    world'.console.input = world.console.input := by
  obtain ⟨shown, hprint, -⟩ := hreports
  have hinput := world.console.input_print (shell.report source shown)
  rwa [hprint] at hinput

/-! ## Running sources one after the other -/

/-- The console after lines have been printed, as far as they fit. -/
def after (console : Host.Console) (lines : List String) : Host.Console :=
  (console.print lines).2

theorem Serves.confined {sources : List String} (hserves : shell.Serves world sources world')
    (hshell : shell.Confined world.memory) :
    world'.files = world.files ∧ world'.console.input = world.console.input ∧
      shell.Confined world'.memory ∧
      ∃ reports, List.Forall₂ (fun source lines => ∃ shown, lines = shell.report source shown)
          sources reports ∧
        world'.console = reports.foldl after world.console := by
  induction hserves with
  | nil => exact ⟨rfl, rfl, hshell, [], .nil, rfl⟩
  | cons hrun _ ih =>
      obtain ⟨hfiles, hmiddle, hreports⟩ := hshell.run hrun
      obtain ⟨hfiles', hinput', hshell', reports, hall, hconsole⟩ := ih hmiddle
      have hinput := hreports.input_eq
      obtain ⟨shown, hprint, -⟩ := hreports
      refine ⟨hfiles'.trans hfiles, hinput'.trans hinput, hshell',
        shell.report _ shown :: reports, .cons ⟨shown, rfl⟩ hall, ?_⟩
      rw [List.foldl_cons, after, hprint]
      exact hconsole

theorem confined_of_create {showProgram : Bool} {console : Host.Console} {files : Host.Directory}
    (hcreate : (Shell.create showProgram false).run (.initial console files) =
      some (shell, world)) :
    world.outside = (console, files) ∧ shell.Confined world.memory := by
  cases hcreate
  exact ⟨rfl, rfl, rfl, Memory.Each.empty.newFrame none⟩

end Shell

/-! ## Confinement -/

/-- Code that has the standard functions only is confined to memory, at every moment and at the end:
no host function is ever called, since the function and the arguments of every call are among the
values of some moment. So a shell without host access prints its own lines and nothing else,
whatever sources it runs, and in any session with clean memory a line that `get` evaluates is
confined. -/
theorem standard_confinement :
    (∀ (session : Session) (world : World) (frame : FrameRef) (p : Program),
      session.Closed → session.registry = .standard → world.memory.Clean →
        (∀ fuel value world', (session.evalProgram fuel frame p).run world = some (value, world') →
          world'.outside = world.outside ∧ world'.memory.Clean ∧ value.Clean) ∧
        ∀ world' values, (session.plan world (.program frame p)).Reaches world' values →
          world'.outside = world.outside ∧ world'.memory.Clean ∧ ∀ value ∈ values, value.Clean) ∧
    (∀ showProgram console files shell start,
      (Shell.create showProgram false).run (.initial console files) = some (shell, start) →
        ∀ sources world, shell.Serves start sources world →
          world.files = files ∧ world.console.input = console.input ∧ world.memory.Clean ∧
          (∃ reports, List.Forall₂ (fun source lines => ∃ shown, lines = shell.report source shown)
              sources reports ∧
            world.console = reports.foldl Shell.after console) ∧
          ∀ fuel source result world',
            (shell.run fuel source).run.run world = some (result, world') →
              shell.Reports fuel source world result world') ∧
    ∀ (session : Session) (world started : World) (p : Program),
      session.Closed → world.memory.Clean → world.programLine? = some (p, started) →
        started.files = world.files ∧ started.console = world.console.readLine.2 ∧
        (∀ fuel value world', (session.apply fuel (.builtin .get) []).run world =
            some (value, world') →
          world'.outside = started.outside ∧ world'.memory.Clean ∧ value.Clean) ∧
        ∀ world' values, (session.plan world (.apply (.builtin .get) [])).Reaches world' values →
          world'.outside = started.outside ∧ world'.memory.Clean ∧
            ∀ value ∈ values, value.Clean := by
  refine ⟨?_, ?_, ?_⟩
  · intro session world frame p hsession hregistry hclean
    have hrequires : (confinement world.outside).requires session (.program frame p) world :=
      ⟨hsession, hregistry, rfl, hclean, List.forall_mem_nil _⟩
    have hkept := kept_confinement world.outside
    refine ⟨fun fuel value world' hrun => ?_, fun world' values hreaches => ?_⟩
    · obtain ⟨-, houtside, hclean', hvalues⟩ :=
        Session.ensures_of_evalProgram hkept hrequires hrun
      exact ⟨houtside, hclean', hvalues value List.mem_cons_self⟩
    · exact hkept.moment_of_reaches (hkept _ _ _ hrequires) hreaches
  · intro showProgram console files shell start hcreate sources world hserves
    obtain ⟨houtside, hstart⟩ := Shell.confined_of_create hcreate
    obtain ⟨rfl, rfl⟩ := Prod.mk.inj houtside
    obtain ⟨hfiles, hinput, hshell, hreports⟩ := hserves.confined hstart
    exact ⟨hfiles, hinput, hshell.clean, hreports, fun _ _ _ _ hrun => (hshell.run hrun).2.2⟩
  · intro session world started p hsession hclean hline
    obtain ⟨hfiles, hconsole⟩ := World.outside_of_programLine? hline
    have hplan : session.plan world (.apply (.builtin .get) []) =
        .call session.standard (.program session.top p) started .done := by
      simp [Session.plan, Session.planApply, Session.planBuiltin, hline]
    have hclean' : started.memory.Clean := World.memory_of_programLine? hline ▸ hclean
    have hkept := kept_confinement started.outside
    have hmeets : (session.plan world (.apply (.builtin .get) [])).Meets
        (confinement started.outside) fun result world' =>
          (confinement started.outside).moment world' result.values := by
      rw [hplan]
      refine ⟨⟨rfl, hclean', List.forall_mem_nil _⟩,
        ⟨hsession, rfl, rfl, hclean', List.forall_mem_nil _⟩, ?_⟩
      rintro result world' ⟨-, hensures⟩
      exact ⟨hensures, hensures⟩
    refine ⟨hfiles, hconsole, fun fuel value world' hrun => ?_, fun world' values hreaches => ?_⟩
    · have htask : Task.run fuel session world (.apply (.builtin .get) []) =
          some (.one value, world') := by
        rw [Task.run, hrun]
        rfl
      have hmoment := hkept.goal_of_ends hmeets (Task.ends_of_run htask)
      exact ⟨hmoment.1, hmoment.2.1, hmoment.2.2 value List.mem_cons_self⟩
    · exact hkept.moment_of_reaches hmeets hreaches

/-- A session with host access. -/
def Session.hosted : Session := { Session.fresh with registry := Registry.standard.withHost }

/-- A world in which a function that prints is bound, and a line that calls it is next. -/
def World.printing : World where
  memory := (((Memory.empty.newFrame none).2.newFunction
    ⟨["x"], [.expr (.call (.ident "put") [.ident "x"])], ⟨0⟩⟩).2).bind ⟨0⟩ "say" (.function ⟨0⟩)
  console := .ofInput "say(1)\n".toUTF8.toList
  files := .empty

theorem standard_confinement_printing :
    Session.hosted.Closed ∧ World.printing.memory.Clean ∧
      ∃ p started world', World.printing.programLine? = some (p, started) ∧
        (Session.hosted.apply 20 (.builtin .get) []).run .printing =
          some (.error "identifier not found: put", world') ∧
        world'.outside = started.outside ∧ world'.memory.Clean := by
  have hsession : Session.hosted.Closed := rfl
  have hclean : World.printing.memory.Clean :=
    ((Memory.Each.empty.newFrame none).newFunction _).bind _ _ trivial
  have hline : World.printing.programLine?.isSome := by decide +kernel
  have hrun : ((Session.hosted.apply 20 (.builtin .get) []).run .printing).map Prod.fst =
      some (.error "identifier not found: put") := by
    decide +kernel
  obtain ⟨⟨p, started⟩, hline⟩ := Option.isSome_iff_exists.mp hline
  obtain ⟨⟨value, world'⟩, hrun, rfl⟩ := Option.map_eq_some_iff.mp hrun
  obtain ⟨-, -, hanswer, -⟩ :=
    standard_confinement.2.2 .hosted .printing started p hsession hclean hline
  obtain ⟨houtside, hclean', -⟩ := hanswer 20 _ world' hrun
  exact ⟨hsession, hclean, p, started, world', hline, hrun, houtside, hclean'⟩

end Monkey
