import Monkey.Proofs.Evaluation.Lines
import Monkey.Proofs.Session.Prompts

/-! # Lines of a session

Whoever holds the console of a shell may write to it, read lines and run programs, in any order, and
the programs read lines as well (`Shell.Pulls`). However these reads are interleaved, every line of
the input is delivered once and in order (`Shell.every_line_delivered_once`). Files and interactive
sessions are run in such a way.
-/

namespace Monkey

open Host

/-- The end of a run is its last moment. -/
theorem Plan.Draws.pulls {plan : Plan} {reads : List Console} {result : Result} {world : World}
    (hdraws : plan.Draws reads result world) : plan.Pulls reads world := by
  induction hdraws with
  | done => exact .done
  | pass _ ih => exact .next ih
  | call htask _ _ ih => exact .after htask ih

namespace Shell

/-- Texts are written, lines are read and programs are run in any order, up to a moment of any of
these runs, and all the consoles that have been read so far are these. -/
inductive Pulls (shell : Shell) (start : World) : List Console → World → Prop
  | start : Pulls shell start [] start
  | write {reads world text result world'} (hpulls : Pulls shell start reads world)
    (hwrite : (Printing.write text).run.run world = some (result, world')) :
    Pulls shell start reads world'
  | readLine {reads world result world'} (hpulls : Pulls shell start reads world)
    (hread : Printing.readLine.run.run world = some (result, world')) :
    Pulls shell start (reads ++ [world.console]) world'
  | program {reads world p inner world'} (hpulls : Pulls shell start reads world)
    (hplan : (shell.session.plan world (.program shell.session.top p)).Pulls inner world') :
    Pulls shell start (reads ++ inner) world'

/-- The world is come to by writing, reading and running programs. -/
def Attains (shell : Shell) (start world : World) : Prop :=
  ∃ reads, shell.Pulls start reads world

section

variable {shell : Shell} {start world world' : World} {reads : List Console} {fuel left : Nat}

theorem input_of_readLine {result : Except Host.Failure (Option String)}
    (hread : Printing.readLine.run.run world = some (result, world')) :
    world'.console.input = Console.afterLine world.console.input := by
  obtain ⟨-, rfl⟩ := Prod.mk.inj (Option.some.inj hread)
  exact congrArg Console.input world.console.readLine_snd

theorem Pulls.pulled (hsession : shell.session.Closed) (hpulls : shell.Pulls start reads world) :
    Pulled start.console.input reads world.console.input := by
  induction hpulls with
  | start => exact .nil
  | write _ hwrite ih =>
      rw [holds_write _ _ _ _ _ rfl hwrite]
      exact ih
  | readLine _ hread ih =>
      rw [input_of_readLine hread]
      exact ih.append (.single _)
  | program _ hplan ih =>
      exact ih.append (Task.pulled_of_pulls hsession hplan)

/-! ## Runs of the shell -/

namespace Attains

theorem write (text : String) : Preserves (shell.Attains start) (Printing.write text) :=
  fun _ _ _ ⟨reads, hpulls⟩ hrun => ⟨reads, hpulls.write hrun⟩

theorem readLine : Preserves (shell.Attains start) Printing.readLine :=
  fun _ _ _ ⟨_, hpulls⟩ hrun => ⟨_, hpulls.readLine hrun⟩

theorem program (fuel : Nat) (p : Program) : Preserves (shell.Attains start)
    (Printing.ofEval (shell.session.evalProgram fuel shell.session.top p)) := by
  refine .lift fun world value world' hattains hrun => ?_
  obtain ⟨reads, hpulls⟩ := hattains
  obtain ⟨inner, hdraws⟩ := (Task.ends_of_run (Session.run_program hrun)).exists_draws
  exact ⟨_, hpulls.program hdraws.pulls⟩

theorem run (fuel : Nat) (source : String) :
    Preserves (shell.Attains start) (shell.run fuel source) :=
  (Preserves.printing write).run (program fuel _)

theorem round (fuel : Nat) : Preserves (shell.Attains start) (Shell.round fuel shell) := by
  refine (write _).bind fun _ => readLine.bind fun line => ?_
  obtain ⟨more, hserve⟩ | ⟨source, hserve⟩ := shell.serve_cases line
  · rw [hserve]
    exact .pure _
  · rw [hserve]
    exact (run fuel source).bind fun _ => .pure _

theorem lines (fuel : Nat) : Preserves (shell.Attains start) (Shell.lines fuel shell) := by
  induction fuel with
  | zero => exact .lift nofun
  | succ fuel ih =>
      rw [lines_succ]
      refine (round fuel).bind fun more => ?_
      cases more with
      | true => exact ih
      | false => exact .pure _

theorem runFile (fuel : Nat) (path : String) :
    Preserves (shell.Attains start) (shell.runFile fuel path) := by
  refine Preserves.get.bind fun world => ?_
  split
  · exact .throw _
  · refine ((run fuel _).adapt _).bind fun outcome => ?_
    split
    · exact .throw _
    · exact .throw _
    · exact .pure _

end Attains

theorem Prompts.attains (hprompts : shell.Prompts fuel start left world) :
    shell.Attains start world := by
  induction hprompts with
  | first hbanner => exact Attains.write _ _ _ _ ⟨[], .start⟩ hbanner
  | next _ hround ih => exact Attains.round _ _ _ _ ih hround

end

/-- Every line of the input is delivered exactly once, in order, whether an interactive session
reads it or a script. A read delivers the line whose turn it is, or fails if that line is no text,
and delivers nothing when no line is left; either way the lines after it are left. Every moment of a
program that a shell runs, and every end of a run of the shell, is come to by such reads. -/
theorem every_line_delivered_once {shell : Shell} (hsession : shell.session.Closed)
    (start : World) :
    (∀ reads world, shell.Pulls start reads world →
      (∀ time console, reads[time]? = some console →
        console.readLine.1 = delivery start.console.input time) ∧
      world.console.input = ((cutLines start.console.input).drop reads.length).flatten ∧
      ∀ console ∈ reads, ∀ line, console.readLine.1 = .ok (some line) → '\n' ∉ line.toList) ∧
    ((cutLines start.console.input).flatten = start.console.input ∧
      ∀ front line back, cutLines start.console.input = front ++ line :: back →
        IsLine line back.flatten) ∧
    (∀ p world values,
      (shell.session.plan start (.program shell.session.top p)).Reaches world values →
        shell.Attains start world) ∧
    (∀ fuel source result world, (shell.run fuel source).run.run start = some (result, world) →
      shell.Attains start world) ∧
    (∀ fuel path result world, (shell.runFile fuel path).run.run start = some (result, world) →
      shell.Attains start world) ∧
    (∀ fuel left world, shell.Prompts fuel start left world → shell.Attains start world) ∧
    ∀ fuel result world, (shell.interact fuel).run.run start = some (result, world) →
      shell.Attains start world := by
  have hstart : shell.Attains start start := ⟨[], .start⟩
  refine ⟨?_, ⟨flatten_cutLines _, fun _ _ _ => isLine_of_cutLines⟩, ?_, ?_, ?_, ?_, ?_⟩
  · intro reads world hpulls
    have hpulled := hpulls.pulled hsession
    exact ⟨fun _ _ => hpulled.readLine_fst, hpulled.rest_eq,
      fun _ _ _ => Console.feed_not_mem_of_readLine⟩
  · intro p world values hreaches
    obtain ⟨inner, hplan⟩ := hreaches.exists_pulls
    exact ⟨_, .program .start hplan⟩
  · exact fun fuel source _ _ => Attains.run fuel source _ _ _ hstart
  · exact fun fuel path _ _ => Attains.runFile fuel path _ _ _ hstart
  · exact fun _ _ _ => Prompts.attains
  · intro fuel _ _
    exact ((Attains.write _).bind fun _ => Attains.lines fuel) _ _ _ hstart

/-- A line that calls `get`, a line that is no text, and a last line without a line feed. -/
def mixed : World where
  memory := (Memory.empty.newFrame none).2
  console := .ofInput ("get()\r\n".toUTF8.toList ++ [255, 10] ++ "x".toUTF8.toList)
  files := .empty

/-- The session reads the first and the last line, and a script the one in between. -/
theorem every_line_delivered_once_mixed :
    ∃ first second third more final,
      ((⟨.hosted, false⟩ : Shell).interact 30).run.run mixed = some (.ok (), final) ∧
      (⟨.hosted, false⟩ : Shell).Pulls mixed (first :: second :: third :: more) final ∧
      first.readLine.1 = .ok (some "get()") ∧ second.readLine.1 = .error .notUtf8 ∧
      third.readLine.1 = .ok (some "x") ∧ ∀ console ∈ more, console.readLine.1 = .ok none := by
  have hrun : (((⟨.hosted, false⟩ : Shell).interact 30).run.run mixed).map
      (fun reply => (reply.1, reply.2.console.input)) = some (.ok (), []) := by
    decide +kernel
  obtain ⟨⟨_, final⟩, hfinal, hreply⟩ := Option.map_eq_some_iff.mp hrun
  obtain ⟨rfl, hempty⟩ := Prod.mk.inj hreply
  have hsession : Session.hosted.Closed := rfl
  obtain ⟨hdelivered, -, -, -, -, -, hinteract⟩ :=
    @every_line_delivered_once ⟨.hosted, false⟩ hsession mixed
  obtain ⟨reads, hpulls⟩ := hinteract 30 _ _ hfinal
  obtain ⟨hanswers, hleft, -⟩ := hdelivered _ _ hpulls
  have hcut : cutLines mixed.console.input =
      ["get()\r\n".toUTF8.toList, [255, 10], "x".toUTF8.toList] := by
    decide +kernel
  rw [hempty, hcut] at hleft
  -- The input has been used up, so all three lines have been read.
  have hlength : 3 ≤ reads.length := by
    by_contra hshort
    have hmore : ∀ count < 3, (List.drop count
        ["get()\r\n".toUTF8.toList, [255, 10], "x".toUTF8.toList]).flatten ≠ [] := by
      decide +kernel
    exact hmore _ (Nat.lt_of_not_le hshort) hleft.symm
  match reads, hlength with
  | first :: second :: third :: more, _ =>
    have hfirst : delivery mixed.console.input 0 = .ok (some "get()") := by decide +kernel
    have hsecond : delivery mixed.console.input 1 = .error .notUtf8 := by decide +kernel
    have hthird : delivery mixed.console.input 2 = .ok (some "x") := by decide +kernel
    refine ⟨first, second, third, more, final, hfinal, hpulls, (hanswers 0 _ rfl).trans hfirst,
      (hanswers 1 _ rfl).trans hsecond, (hanswers 2 _ rfl).trans hthird, fun console hmem => ?_⟩
    obtain ⟨time, htime⟩ := List.getElem?_of_mem hmem
    rw [hanswers (time + 3) console htime, delivery, hcut]
    rfl

end Shell

end Monkey
