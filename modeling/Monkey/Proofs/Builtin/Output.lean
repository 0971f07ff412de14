import Monkey.Proofs.Builtin.Rules
import Monkey.Proofs.Host.Display

/-! # What calls of builtin functions print

`put` writes its arguments piece by piece, `clear` writes a control sequence, and `get` prints the
diagnostics of a line that it rejects. When the console refuses any of it, the call fails, and the
console is shut from then on (`Builtin.Refused.run`).
-/

namespace Monkey

theorem run_printing {computation : Printing Unit} {lines : List String}
    (hprints : Prints computation lines) (world : World) :
    (Call.ofPrinting computation).run.run world =
      some ((world.console.print lines).1.mapError .console,
        { world with console := (world.console.print lines).2 }) := by
  rw [Call.run_ofPrinting, hprints]
  rfl

theorem Host.Console.readLine_ne_outputClosed (console console' : Console) :
    console.readLine ≠ (.error .outputClosed, console') := by
  intro hread
  rw [readLine] at hread
  split at hread
  · cases hread
  · have hresult := congrArg Prod.fst hread
    simp only [decode] at hresult
    split at hresult
    · cases hresult
    · cases hresult

/-! ## Calls that leave the console alone -/

/-- The call does not fail because of the console. -/
def Offline {α : Type} (call : Call α) : Prop :=
  ∀ world failure world', call.run.run world ≠ some (.error (.console failure), world')

theorem Offline.bind {α β : Type} {first : Call α} {next : α → Call β} (hfirst : Offline first)
    (hnext : ∀ value, Offline (next value)) : Offline (first >>= next) := by
  intro world failure world' hrun
  rw [run_bind] at hrun
  rcases hmiddle : first.run.run world with _ | ⟨fault | value, middle⟩
  · rw [hmiddle] at hrun
    cases hrun
  · rw [hmiddle] at hrun
    cases hrun
    exact hfirst _ _ _ hmiddle
  · rw [hmiddle] at hrun
    exact hnext value _ _ _ hrun

theorem offline_lift {α : Type} (evaluation : Eval α) : Offline (Call.ofEval evaluation) := by
  intro world failure world' hrun
  rw [Call.ofEval, run_lift] at hrun
  obtain ⟨reply, -, hreply⟩ := Option.map_eq_some_iff.mp hrun
  cases hreply

theorem offline_rules : Builtin.FileRules fun _ call => Offline call where
  pure _ := by rintro world failure world' ⟨⟩
  fail hfault := by
    rintro world failure world' ⟨⟩
    exact hfault failure rfl
  bind := Offline.bind
  elements _ := offline_lift _
  text _ := offline_lift _
  newArray _ := offline_lift _
  append _ _ := offline_lift _
  readFile path := by
    intro world failure world' hrun
    rw [run_readFile] at hrun
    cases hread : world.files.readText path with
    | _ =>
        rw [hread] at hrun
        cases hrun
  writeFile path text := by
    intro world failure world' hrun
    rw [run_writeFile] at hrun
    cases hwrite : world.files.write path text.toUTF8 with
    | _ =>
        rw [hwrite] at hrun
        cases hrun

/-! ## Calls that print -/

namespace Builtin

variable {evaluate : Program → Eval Value} {foreign : String → List Value → Call Value}

/-- The loop of `put`. -/
def printAll (args : List Value) : Call PUnit :=
  forIn args PUnit.unit fun arg _ => do
    Call.ofPrinting (Printing.valueLine arg)
    return ForInStep.yield PUnit.unit

theorem run_printAll (args : List Value) (world : World) :
    (printAll args).run.run world =
      ((world.memory.excerptLines world.levels args).answer world).map
        (.map (.mapError .console) id) := by
  induction args generalizing world with
  | nil => rfl
  | cons arg rest ih =>
      rw [printAll, List.forIn_cons, run_bind, run_bind, Call.run_ofPrinting, run_valueLine,
        Memory.excerptLines, Excerpt.answer_append]
      rcases hanswer : (world.memory.excerptLine world.levels arg).answer world with
        _ | ⟨failure | _, middle⟩
      · rfl
      · rfl
      · obtain ⟨console, hcapacity, rfl⟩ := Excerpt.world_of_answer hanswer
        have hlevels : { world with console }.levels = world.levels := by
          rw [World.levels, World.levels, hcapacity]
        rw [← hlevels]
        exact ih { world with console }

/-- `put` writes one line for each argument. -/
theorem run_put (args : List Value) (world : World) :
    (Builtin.call evaluate foreign .put args).run.run world =
      ((world.memory.excerptLines world.levels args).answer world).map
        (.map (fun result => (result.map fun _ => .null).mapError .console) id) := by
  change (printAll args >>= fun _ => pure Value.null).run.run world = _
  rw [run_bind, run_printAll]
  rcases (world.memory.excerptLines world.levels args).answer world with _ | ⟨failure | _, middle⟩
  · rfl
  · rfl
  · rfl

theorem run_clear (world : World) :
    (Builtin.call evaluate foreign .clear []).run.run world =
      some (((world.console.write clearScreen).1.mapError Fault.console).map fun _ => .null,
        { world with console := (world.console.write clearScreen).2 }) := by
  change (Call.ofPrinting (Printing.write clearScreen) >>= fun _ =>
    pure Value.null).run.run world = _
  have hwrite : (Call.ofPrinting (Printing.write clearScreen)).run.run world =
      some ((world.console.write clearScreen).1.mapError Fault.console,
        { world with console := (world.console.write clearScreen).2 }) := rfl
  rw [run_bind, hwrite]
  rcases world.console.write clearScreen with ⟨failure | _, console⟩
  · rfl
  · rfl

/-- A call writes a text that the console refuses: of the texts that show an argument down to some
depth, the control sequence, or a line about what is wrong with a line that was read. -/
inductive Refused (world : World) : Builtin → List Value → Prop
  | put {args depth failure console}
    (hwrite : world.console.writeAll (world.memory.excerptLines depth args).texts =
      (.error failure, console)) :
    Refused world .put args
  | clear {failure console}
    (hwrite : world.console.write clearScreen = (.error failure, console)) :
    Refused world .clear []
  | get {line failure middle console}
    (hread : world.console.readLine = (.ok (some line), middle))
    (hreject : (parse line).diagnostics.isEmpty = false)
    (hprint : middle.print (listing (parse line).diagnostics) = (.error failure, console)) :
    Refused world .get []

/-- A call that writes a text which is refused fails, and the console is shut. -/
theorem Refused.run {builtin : Builtin} {args : List Value} {world : World}
    (hrefused : Refused world builtin args) (evaluate : Program → Eval Value)
    (foreign : String → List Value → Call Value) :
    ∃ console : Host.Console, console.Shut ∧
      (builtin.call evaluate foreign args).run.run world =
        some (.error (.console .outputClosed), { world with console }) := by
  cases hrefused with
  | @put _ _ _ console hwrite =>
      obtain ⟨rfl, hshut⟩ := Host.Console.shut_of_writeAll hwrite
      refine ⟨console, hshut, ?_⟩
      rw [run_put, Excerpt.answer, (Memory.deepens_excerptLines args).refused hwrite]
      rfl
  | @clear _ console hwrite =>
      obtain ⟨rfl, hshut⟩ := Host.Console.shut_of_write hwrite
      refine ⟨console, hshut, ?_⟩
      rw [run_clear, hwrite]
      rfl
  | @get line _ middle console hread hreject hprint =>
      obtain ⟨rfl, hshut⟩ := Host.Console.shut_of_writeAll hprint
      refine ⟨console, hshut, ?_⟩
      change (callGet evaluate).run.run world = _
      rw [callGet, run_bind, run_readLine, hread]
      simp only [Except.mapError, hreject, Bool.false_eq_true, if_false]
      rw [run_bind, run_printing (prints_diagnostics _), hprint]
      rfl

/-! ## Every call that fails because of the output -/

section

variable {args : List Value} {world world' : World}

theorem refused_put_of_run (hrun : (Builtin.call evaluate foreign .put args).run.run world =
    some (.error (.console .outputClosed), world')) : Refused world .put args := by
  rw [run_put, Excerpt.answer] at hrun
  split at hrun
  · split at hrun
    · cases hrun
    · cases hrun
  next hwrite => exact .put hwrite

theorem refused_clear_of_run (hrun : (Builtin.call evaluate foreign .clear args).run.run world =
    some (.error (.console .outputClosed), world')) : Refused world .clear args := by
  cases args with
  | nil =>
      rw [run_clear] at hrun
      rcases hwrite : world.console.write clearScreen with ⟨failure | _, console⟩
      · exact .clear hwrite
      · rw [hwrite] at hrun
        cases hrun
  | cons => cases hrun

theorem refused_get_of_run (hrun : (Builtin.call evaluate foreign .get args).run.run world =
    some (.error (.console .outputClosed), world')) : Refused world .get args := by
  cases args with
  | cons => cases hrun
  | nil =>
      change (callGet evaluate).run.run world = _ at hrun
      rw [callGet, run_bind, run_readLine] at hrun
      rcases hread : world.console.readLine with ⟨failure | _ | line, middle⟩
      · rw [hread] at hrun
        cases hrun
        exact absurd hread (Host.Console.readLine_ne_outputClosed _ _)
      · rw [hread] at hrun
        cases hrun
      · rw [hread] at hrun
        by_cases haccept : (parse line).diagnostics.isEmpty
        · simp only [Except.mapError, haccept, if_true] at hrun
          exact absurd hrun (offline_lift _ _ _ _)
        · rw [Bool.not_eq_true] at haccept
          simp only [Except.mapError, haccept, Bool.false_eq_true, if_false] at hrun
          rw [run_bind, run_printing (prints_diagnostics _)] at hrun
          rcases hprint : middle.print (listing (parse line).diagnostics) with
            ⟨failure | _, console⟩
          · exact .get hread haccept hprint
          · rw [hprint] at hrun
            cases hrun

/-- The calls that write a text which is refused are those that fail because the output is
closed. -/
theorem refused_iff {builtin : Builtin} :
    Refused world builtin args ↔
      ∃ world', (builtin.call evaluate (fun name _ => throw (.unbound name)) args).run.run world =
        some (.error (.console .outputClosed), world') := by
  constructor
  · intro hrefused
    obtain ⟨console, -, hrun⟩ := hrefused.run evaluate fun name _ => throw (.unbound name)
    exact ⟨_, hrun⟩
  · rintro ⟨world', hrun⟩
    by_cases hbuiltin : builtin ∉ [put, get, clear]
    · exact absurd hrun (offline_rules.call hbuiltin args _ _ _)
    · cases builtin with
      | put => exact refused_put_of_run hrun
      | get => exact refused_get_of_run hrun
      | clear => exact refused_clear_of_run hrun
      | foreign name => cases hrun
      | _ => exact absurd (by decide) hbuiltin

end

end Builtin

end Monkey
