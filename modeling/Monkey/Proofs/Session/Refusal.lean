import Monkey.Proofs.Program.Recovery
import Monkey.Proofs.Session.Prompts

/-! # Lines that are not run

An interactive session passes over blank lines and reports lines that are no programs. Apart from
what it prints for such a line, it goes on as if the line had not been in the input, although its
scripts read from the same input.
-/

namespace Monkey

open Host

namespace World

/-- The world with other input. -/
def withInput (world : World) (input : List UInt8) : World :=
  { world with console := { world.console with input } }

/-- The world after a text has been printed in full. -/
def printed (world : World) (text : String) : World :=
  { world with console := world.console.append text }

theorem printed_printed (world : World) (text text' : String) :
    (world.printed text).printed text' = world.printed (text ++ text') := by
  rw [printed, printed, printed, Console.append_append]

/-- The second world is the first without a text that was printed behind other output. -/
structure Lacks (before : ByteArray) (text : String) (world world' : World) : Prop where
  memory : world'.memory = world.memory
  files : world'.files = world.files
  input : world'.console.input = world.console.input
  output : ∃ behind, world.console.output = before ++ text.toUTF8 ++ behind ∧
    world'.console.output = before ++ behind

/-- Of two consoles one has read all that they share, and they have printed the same. -/
theorem Twin.eq_withInput {world world' : World} {rest : List UInt8} {output : ByteArray}
    (htwin : world.Twin ⟨world.console.input, rest, output, output⟩ world') :
    world' = world.withInput rest := by
  obtain ⟨_, ⟨input, _, _⟩, _⟩ := world'
  obtain ⟨rfl, rfl, hcapacity, rfl, ⟨shared, hshared, hinput, -⟩, written, houtput, rfl⟩ := htwin
  obtain rfl : shared = [] := List.append_left_eq_self.mp hshared.symm
  obtain rfl : input = rest := hinput
  simp only [withInput, houtput, hcapacity]

end World

namespace Shell

section

variable {shell : Shell} {fuel left : Nat} {start world : World}

/-! ## Refused lines -/

/-- The line is blank, or it is no program. -/
def Refused (line : String) : Prop :=
  Text.trim line = "" ∨ (parse (Text.trim line)).diagnostics ≠ []

/-- What is wrong with a source, line by line. -/
def complaint : List Diagnostic → List String
  | [] => []
  | diagnostics => "Parser errors:" :: diagnostics.map fun d => "\t" ++ d.message

/-- What the session prints for a line that it refuses: the prompt, and what is wrong with the line
unless it is blank. -/
def refusal (line : String) : String :=
  prompt ++ String.join ((complaint (parse (Text.trim line)).diagnostics).map (· ++ "\n"))

theorem Refused.ne_exit {line : String} (hline : Refused line) :
    ¬ (Text.trim line = "exit" ∨ Text.trim line = "e") := by
  rintro (htrim | htrim)
  · rw [Refused, htrim] at hline
    revert hline
    decide +kernel
  · rw [Refused, htrim] at hline
    revert hline
    decide +kernel

/-- Without a limit to the output all lines are written. -/
theorem print_eq {console : Console} (hcapacity : console.capacity = none) (lines : List String) :
    console.print lines = (.ok (), console.append (String.join (lines.map (· ++ "\n")))) := by
  rw [Console.print_eq_write, Console.write_eq hcapacity]

theorem run_write (hcapacity : world.console.capacity = none) (text : String) :
    (Printing.write text).run.run world =
      some (.ok (), world.printed text) := by
  change some ((world.console.write text).1, { world with
    console := (world.console.write text).2 }) = _
  rw [Console.write_eq hcapacity]
  rfl

theorem Refused.run_serve {line : String} (hline : Refused line) (fuel : Nat)
    (hcapacity : world.console.capacity = none) :
    (shell.serve fuel (some line)).run.run world = some (.ok true, world.printed
      (String.join ((complaint (parse (Text.trim line)).diagnostics).map (· ++ "\n")))) := by
  simp only [serve, if_neg hline.ne_exit]
  by_cases hblank : Text.trim line = ""
  · have hempty : (parse "").diagnostics = [] := by decide +kernel
    rw [if_pos hblank, hblank, hempty]
    simp [complaint, World.printed]
  · have hreject : (parse (Text.trim line)).diagnostics ≠ [] := hline.resolve_left hblank
    rw [if_neg hblank]
    rw [run_of_rejected (by simpa using hreject), bind_assoc, run_bind, prints_diagnostics,
      print_eq hcapacity]
    cases hall : (parse (Text.trim line)).diagnostics with
    | nil => exact absurd hall hreject
    | cons d rest => rfl

theorem Refused.run_round {line : String} {after : Console} (hline : Refused line) (fuel : Nat)
    (hcapacity : world.console.capacity = none)
    (hread : world.console.readLine = (.ok (some line), after)) :
    (round fuel shell).run.run world =
      some (.ok true, (world.withInput after.input).printed (refusal line)) := by
  have hafter : after = { world.console with input := after.input } := by
    rw [Console.eq_of_readLine hread]
  have hreadLine : Printing.readLine.run.run (world.printed prompt) =
      some (.ok (some line), (world.withInput after.input).printed prompt) := by
    change some ((world.console.append prompt).readLine.1, { world with
      console := (world.console.append prompt).readLine.2 }) = _
    rw [Console.readLine_append, hread, hafter]
    rfl
  rw [round, run_bind, run_write hcapacity]
  change (Printing.readLine >>= shell.serve fuel).run.run (world.printed prompt) = _
  rw [run_bind, hreadLine]
  have hopen : ((world.withInput after.input).printed prompt).console.capacity = none := hcapacity
  change (shell.serve fuel (some line)).run.run ((world.withInput after.input).printed prompt) = _
  rw [hline.run_serve fuel hopen, World.printed_printed, refusal]

/-! ## Without a line -/

/-- What a session has not read can be replaced, and its output is still not closed. -/
theorem Prompts.withInput {front : List UInt8} (hsession : shell.session.Closed)
    (hprompts : shell.Prompts fuel start left world) (hcapacity : start.console.capacity = none)
    (hinput : start.console.input = front ++ world.console.input) (hfront : WholeLines front)
    (hne : world.console.input ≠ []) (rest : List UInt8) :
    shell.Prompts fuel (start.withInput (front ++ rest)) left (world.withInput rest) ∧
      world.console.capacity = none := by
  let δ : Difference := ⟨world.console.input, rest, .empty, .empty⟩
  have htwin : start.Twin δ (start.withInput (front ++ rest)) :=
    ⟨rfl, rfl, hcapacity, hcapacity, ⟨front, hinput, rfl, .inr ⟨hne, hfront⟩⟩,
      start.console.output, ByteArray.empty_append.symm, ByteArray.empty_append.symm⟩
  obtain ⟨world', hprompts', htwin'⟩ := hprompts.mirrors hsession htwin (Nat.le_refl _)
  rw [← htwin'.eq_withInput]
  exact ⟨hprompts', htwin'.console.capacity⟩

/-- What has been printed before makes no difference to the lines that follow. -/
theorem lines_append {text : String} {result : Except Host.Failure Unit} {final : World}
    (hsession : shell.session.Closed) (hcapacity : world.console.capacity = none)
    (hrun : (lines fuel shell).run.run (world.printed text) = some (result, final)) :
    ∃ final', (lines fuel shell).run.run world = some (result, final') ∧
      World.Lacks world.console.output text final final' := by
  let δ : Difference := ⟨[], [], world.console.output ++ text.toUTF8, world.console.output⟩
  have htwin : (world.printed text).Twin δ world :=
    ⟨rfl, rfl, hcapacity, hcapacity, ⟨world.console.input, (List.append_nil _).symm,
      (List.append_nil _).symm, .inl ⟨rfl, rfl⟩⟩, .empty, ByteArray.append_empty.symm,
      ByteArray.append_empty.symm⟩
  obtain ⟨final', hrun', hmemory, hfiles, hconsole⟩ :=
    (mirrored_lines hsession fuel).mirrors htwin hrun (Nat.zero_le _)
  obtain ⟨shared, hinput, hinput', -⟩ := hconsole.input
  exact ⟨final', hrun', hmemory, hfiles, hinput'.trans hinput.symm, hconsole.output⟩

/-- A session whose input lacks a line that it refuses ends in the same way. -/
theorem Refused.interact_without {line : String} {after : Console}
    {result : Except Host.Failure Unit} {final : World} {front : List UInt8} (hline : Refused line)
    (hsession : shell.session.Closed) (hprompts : shell.Prompts fuel start left world)
    (hcapacity : start.console.capacity = none)
    (hrun : (shell.interact fuel).run.run start = some (result, final))
    (hread : world.console.readLine = (.ok (some line), after))
    (hinput : start.console.input = front ++ world.console.input) (hfront : WholeLines front)
    (hne : world.console.input ≠ []) :
    ∃ final', (shell.interact fuel).run.run (start.withInput (front ++ after.input)) =
      some (result, final') ∧ World.Lacks world.console.output (refusal line) final final' := by
  obtain ⟨hprompts', hcapacity'⟩ :=
    hprompts.withInput hsession hcapacity hinput hfront hne after.input
  rw [hprompts.run_interact] at hrun
  cases left with
  | zero => cases hrun
  | succ left =>
      rw [lines_succ, run_bind, hline.run_round left hcapacity' hread] at hrun
      -- Without the line the session has one more round to go.
      have hmore := within_lines shell left _ _ hrun
      have hopen : (world.withInput after.input).console.capacity = none := hcapacity'
      obtain ⟨final', hrun', hlacks⟩ := lines_append hsession hopen hmore
      exact ⟨final', hprompts'.run_interact.trans hrun', hlacks⟩

/-- The line that is read at a prompt is a line of the input. -/
theorem Prompts.exists_isLine {line : String} {after : Console}
    (hsession : shell.session.Closed) (hprompts : shell.Prompts fuel start left world)
    (hread : world.console.readLine = (.ok (some line), after)) :
    ∃ front segment, start.console.input = front ++ world.console.input ∧ WholeLines front ∧
      world.console.input = segment ++ after.input ∧ IsLine segment after.input := by
  have hne : world.console.input ≠ [] := by
    intro hnil
    have hnone : world.console.readLine = (.ok none, world.console) := by
      rw [Console.readLine, hnil]
      rfl
    cases hnone.symm.trans hread
  obtain ⟨segment, hinput, hsegment⟩ := Console.exists_isLine hne
  obtain ⟨front, hstart, hfront⟩ := hprompts.leftOf hsession
  rw [Console.eq_of_readLine hread]
  exact ⟨front, segment, hstart, hfront.resolve_left hne, hinput, hsegment⟩

end

/-- The diagnostics of a source are located at ever later tokens of it. -/
theorem exists_places_of_parse (source : String) :
    ∃ places : List Nat, places.Pairwise (· < ·) ∧
      List.Forall₂ (fun d place => ∃ t, (Token.tokenize source).toList[place]? = some t ∧ d.IsAt t)
        (parse source).diagnostics places := by
  obtain ⟨segments, rest, hsegmented⟩ := (Token.tokenize source).exists_segmented
  obtain ⟨pieces, hcut, rfl⟩ := hsegmented.exists_cut
  rw [parse, hsegmented.parseProgram_eq]
  exact hcut.exists_places

/-- A new shell does not depend on the input. -/
theorem create_ofInput {showProgram hostAccess : Bool} {input : List UInt8} {files : Directory}
    {shell : Shell} {start : World}
    (hnew : (Shell.create showProgram hostAccess).run (.initial (.ofInput input) files) =
      some (shell, start)) :
    shell.session.Closed ∧ start.console = .ofInput input ∧
      ∀ input', (Shell.create showProgram hostAccess).run (.initial (.ofInput input') files) =
        some (shell, start.withInput input') := by
  cases hnew
  exact ⟨rfl, rfl, fun _ => rfl⟩

/-- A line that a session reads at a prompt and refuses has no effect but what is printed for it:
the session with an input from which the line has been taken ends with the same result, memory and
files, and its output lacks nothing else. -/
theorem interact_without_refused_line {showProgram hostAccess : Bool} {input : List UInt8}
    {files : Directory} {shell : Shell} {fuel left : Nat} {start world final : World}
    {result : Except Host.Failure Unit} {line : String} {after : Console}
    (hnew : (Shell.create showProgram hostAccess).run (.initial (.ofInput input) files) =
      some (shell, start))
    (hrun : (shell.interact fuel).run.run start = some (result, final))
    (hprompts : shell.Prompts fuel start left world)
    (hread : world.console.readLine = (.ok (some line), after)) (hline : Refused line) :
    (∃ front segment, input = front ++ segment ++ after.input ∧ WholeLines front ∧
      world.console.input = segment ++ after.input ∧ IsLine segment after.input ∧
      ∃ start' final', (Shell.create showProgram hostAccess).run
          (.initial (.ofInput (front ++ after.input)) files) = some (shell, start') ∧
        (shell.interact fuel).run.run start' = some (result, final') ∧
        World.Lacks world.console.output (refusal line) final final') ∧
    ∃ places : List Nat, places.Pairwise (· < ·) ∧ List.Forall₂
      (fun d place => ∃ t, (Token.tokenize (Text.trim line)).toList[place]? = some t ∧ d.IsAt t)
      (parse (Text.trim line)).diagnostics places := by
  obtain ⟨hsession, hconsole, hnew'⟩ := create_ofInput hnew
  obtain ⟨front, segment, hinput, hfront, hsegment, hisLine⟩ :=
    hprompts.exists_isLine hsession hread
  have hne : world.console.input ≠ [] := by
    rw [hsegment]
    exact List.append_ne_nil_of_left_ne_nil hisLine.1 _
  have hcapacity : start.console.capacity = none := by rw [hconsole]; rfl
  obtain ⟨final', hrun', hlacks⟩ :=
    hline.interact_without hsession hprompts hcapacity hrun hread hinput hfront hne
  refine ⟨⟨front, segment, ?_, hfront, hsegment, hisLine, _, final', hnew' _, hrun', hlacks⟩,
    exists_places_of_parse _⟩
  rw [hconsole, hsegment, ← List.append_assoc] at hinput
  exact hinput

/-- A shell with host access. -/
def hosted : Shell := ⟨.hosted, false⟩

/-- The world in which a session with the given input starts. -/
def awaiting (text : String) : World :=
  ⟨(Memory.empty.newFrame none).2, .ofInput text.toUTF8.toList, .empty⟩

/-- A script reads the line behind its own, and the line behind both is refused. -/
def dialogue : World := awaiting "let a = get();\n41\n)\na + 1\n"

theorem interact_without_refused_line_dialogue :
    ∃ left world after final final',
      (hosted.interact 30).run.run dialogue = some (.ok (), final) ∧
      hosted.Prompts 30 dialogue left world ∧
      world.console.readLine = (.ok (some ")"), after) ∧ Refused ")" ∧
      refusal ")" = ">> Parser errors:\n\t1:1: no prefix parse function for ) found\n" ∧
      (hosted.interact 30).run.run (awaiting "let a = get();\n41\na + 1\n") =
        some (.ok (), final') ∧
      World.Lacks world.console.output (refusal ")") final final' := by
  have hrun : ((hosted.interact 30).run.run dialogue).map Prod.fst = some (.ok ()) := by
    decide +kernel
  have hround : ((round 29 hosted).run.run (dialogue.printed (banner ++ "\n"))).map
      (fun reply => (reply.1, reply.2.console.readLine.1, reply.2.console.input)) =
        some (.ok true, .ok (some ")"), ")\na + 1\n".toUTF8.toList) := by
    decide +kernel
  obtain ⟨⟨_, final⟩, hfinal, rfl⟩ := Option.map_eq_some_iff.mp hrun
  obtain ⟨⟨more, world⟩, hworld, hreply⟩ := Option.map_eq_some_iff.mp hround
  obtain ⟨rfl, hread, hinput⟩ := by simpa only [Prod.mk.injEq] using hreply
  have hprompts : hosted.Prompts 30 dialogue 29 world := .next (.first (run_write rfl _)) hworld
  have hnew : (Shell.create false true).run (.initial dialogue.console .empty) =
      some (hosted, dialogue) := rfl
  have hline : Refused ")" := .inr (by decide +kernel)
  obtain ⟨⟨front, segment, hstart, -, hsegment, -, start', final', hnew', hrun', hlacks⟩, -⟩ :=
    interact_without_refused_line hnew hfinal hprompts (Prod.ext hread rfl) hline
  have hfront : front = "let a = get();\n41\n".toUTF8.toList := by
    rw [List.append_assoc, ← hsegment, hinput] at hstart
    refine List.append_cancel_right (hstart.symm.trans ?_)
    decide +kernel
  have hafter : world.console.readLine.2.input = "a + 1\n".toUTF8.toList := by
    rw [Console.readLine_snd, hinput]
    change Console.afterLine _ = _
    decide +kernel
  have hshorter : front ++ world.console.readLine.2.input =
      "let a = get();\n41\na + 1\n".toUTF8.toList := by
    rw [hfront, hafter]
    decide +kernel
  rw [hshorter] at hnew'
  cases hnew'
  exact ⟨29, world, _, final, final', hfinal, hprompts, Prod.ext hread rfl, hline,
    by decide +kernel, hrun', hlacks⟩

end Shell

end Monkey
