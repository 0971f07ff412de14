import Monkey.Proofs.Computation
import Monkey.Proofs.Memory

/-! # Calls of builtin functions

`get` evaluates the line that it reads, and no other builtin function evaluates anything. All of
them keep memory well-formed and never deliver a pending return.
-/

namespace Monkey

theorem run_settle (call : Call Value) (world : World) :
    (Eval.settle call).run world =
      (call.run.run world).map (.map .ofExcept id) := by
  rw [Eval.settle, StateT.run_map]
  rfl

theorem run_callText (value : Value) (world : World) :
    (Call.ofEval (Eval.text value)).run.run world =
      (world.memory.text? value).map fun text => (.ok text, world) := by
  rw [Call.ofEval, run_lift, run_text]
  cases world.memory.text? value with
  | none => rfl
  | some text => rfl

theorem run_readLine (world : World) :
    (Call.ofPrinting Printing.readLine).run.run world =
      some (world.console.readLine.1.mapError .console,
        { world with console := world.console.readLine.2 }) :=
  rfl

theorem run_readFile (path : String) (world : World) :
    (Call.readFile path).run.run world =
      some ((world.files.readText path).mapError (.unreadable path), world) := by
  have hget : (get : Call World).run.run world = some (.ok world, world) := rfl
  rw [Call.readFile, run_bind, hget]
  dsimp only
  cases world.files.readText path with
  | error failure => rfl
  | ok text => rfl

theorem run_writeFile (path text : String) (world : World) :
    (Call.writeFile path text).run.run world =
      some (((world.files.write path text.toUTF8).map fun _ => ()).mapError (.unwritable path),
        { world with
          files := (world.files.write path text.toUTF8).toOption.getD world.files }) := by
  have hget : (get : Call World).run.run world = some (.ok world, world) := rfl
  rw [Call.writeFile, run_bind, hget]
  dsimp only
  cases world.files.write path text.toUTF8 with
  | error failure => rfl
  | ok files => rfl

namespace World

/-- The program that the next line of the console holds, if it is a program, and the world after the
line has been read. -/
def programLine? (world : World) : Option (Program × World) :=
  match world.console.readLine with
  | (.ok (some line), console) =>
    if (parse line).diagnostics.isEmpty then some ((parse line).program, { world with console })
    else none
  | _ => none

theorem memory_of_programLine? {world world' : World} {p : Program}
    (hline : world.programLine? = some (p, world')) : world'.memory = world.memory := by
  unfold programLine? at hline
  split at hline
  · split at hline
    · cases hline
      rfl
    · cases hline
  · cases hline

theorem outside_of_programLine? {world world' : World} {p : Program}
    (hline : world.programLine? = some (p, world')) :
    world'.files = world.files ∧ world'.console = world.console.readLine.2 := by
  unfold programLine? at hline
  split at hline
  next hread =>
    split at hline
    · cases hline
      rw [hread]
      exact ⟨rfl, rfl⟩
    · cases hline
  · cases hline

end World

namespace Builtin

/-- Only `get` without arguments evaluates anything. -/
theorem call_eq_call (evaluate evaluate' : Program → Eval Value)
    (foreign : String → List Value → Call Value) (builtin : Builtin) (args : List Value)
    (hget : ¬ (builtin = .get ∧ args = [])) :
    builtin.call evaluate foreign args = builtin.call evaluate' foreign args := by
  cases builtin with
  | get =>
      cases args with
      | nil => exact absurd ⟨rfl, rfl⟩ hget
      | cons arg rest => rfl
  | _ => rcases args with _ | ⟨a, _ | ⟨b, _ | ⟨c, rest⟩⟩⟩ <;> rfl

theorem run_settle_callGet (evaluate : Program → Eval Value) (world : World) :
    (Eval.settle (Builtin.callGet evaluate)).run world =
      match world.programLine? with
      | some (p, world) => (evaluate p).run world
      | none => (Eval.settle (Builtin.callGet fun _ => failure)).run world := by
  rw [run_settle, run_settle, Builtin.callGet, Builtin.callGet, run_bind, run_bind,
    World.programLine?]
  rw [run_readLine]
  rcases world.console.readLine with ⟨failure | _ | line, console⟩
  · rfl
  · rfl
  · by_cases haccept : (parse line).diagnostics.isEmpty
    · simp only [Except.mapError, haccept, if_true]
      change ((Except.ok <$> evaluate (parse line).program).run _).map _ = _
      rw [StateT.run_map]
      cases (evaluate (parse line).program).run { world with console } with
      | none => rfl
      | some reply => rfl
    · simp only [Except.mapError, haccept, Bool.false_eq_true, if_false]

end Builtin

/-! ## Invariants of memory -/

section

variable {ε ε' α β : Type} {inv : Memory → Prop} {post : α → Prop} {computation : ExceptT ε Eval α}

/-- The computation keeps an invariant of memory, and its results are as stated. -/
def Keeps (inv : Memory → Prop) (computation : ExceptT ε Eval α) (post : α → Prop) : Prop :=
  ∀ world result world', inv world.memory → computation.run.run world = some (result, world') →
    inv world'.memory ∧ ∀ value, result = .ok value → post value

theorem keeps_pure {value : α} (hvalue : post value) :
    Keeps inv (pure value : ExceptT ε Eval α) post := by
  rintro world result world' hinv ⟨⟩
  refine ⟨hinv, ?_⟩
  rintro _ ⟨⟩
  exact hvalue

theorem keeps_throw (failure : ε) : Keeps inv (throw failure : ExceptT ε Eval α) post := by
  rintro world result world' hinv ⟨⟩
  exact ⟨hinv, nofun⟩

theorem Keeps.bind {next : α → ExceptT ε Eval β} {post' : β → Prop}
    (hfirst : Keeps inv computation post)
    (hnext : ∀ value, post value → Keeps inv (next value) post') :
    Keeps inv (computation >>= next) post' := by
  intro world result world' hinv hrun
  rw [run_bind] at hrun
  rcases hmiddle : computation.run.run world with _ | ⟨failure | value, middle⟩
  · rw [hmiddle] at hrun
    cases hrun
  · rw [hmiddle] at hrun
    cases hrun
    exact ⟨(hfirst _ _ _ hinv hmiddle).1, nofun⟩
  · rw [hmiddle] at hrun
    obtain ⟨hkept, hvalue⟩ := hfirst _ _ _ hinv hmiddle
    exact hnext value (hvalue value rfl) _ _ _ hkept hrun

theorem Keeps.weaken {post' : α → Prop} (hkeeps : Keeps inv computation post)
    (hpost : ∀ value, post value → post' value) : Keeps inv computation post' := by
  intro world result world' hinv hrun
  obtain ⟨hkept, hvalue⟩ := hkeeps _ _ _ hinv hrun
  exact ⟨hkept, fun value hok => hpost value (hvalue value hok)⟩

theorem Keeps.adapt (hkeeps : Keeps inv computation post) (f : ε → ε') :
    Keeps inv (computation.adapt f) post := by
  intro world result world' hinv hrun
  change ((Except.mapError f <$> computation.run).run world) = _ at hrun
  rw [StateT.run_map] at hrun
  obtain ⟨⟨middle, _⟩, hmiddle, hresult⟩ := Option.map_eq_some_iff.mp hrun
  cases hresult
  obtain ⟨hkept, hvalue⟩ := hkeeps _ _ _ hinv hmiddle
  refine ⟨hkept, fun value hok => hvalue value ?_⟩
  cases middle with
  | error failure => cases hok
  | ok value' =>
      cases hok
      rfl

theorem keeps_lift {evaluation : Eval α}
    (hkept : ∀ world value world', inv world.memory → evaluation.run world = some (value, world') →
      inv world'.memory ∧ post value) :
    Keeps inv (ExceptT.lift evaluation : ExceptT ε Eval α) post := by
  intro world result world' hinv hrun
  change (Except.ok <$> evaluation).run world = _ at hrun
  rw [StateT.run_map] at hrun
  obtain ⟨⟨value, _⟩, hvalue, hresult⟩ := Option.map_eq_some_iff.mp hrun
  cases hresult
  obtain ⟨hinv', hpost⟩ := hkept _ _ _ hinv hvalue
  refine ⟨hinv', ?_⟩
  rintro _ ⟨⟩
  exact hpost

/-- Whatever is kept step by step is kept by sequences. -/
theorem keeps_sequential :
    Sequential fun α (computation : ExceptT ε Eval α) => Keeps inv computation fun _ => True where
  pure _ := keeps_pure trivial
  bind hfirst hnext := hfirst.bind fun value _ => hnext value

theorem keeps_write (text : String) : Keeps inv (Printing.write text) fun _ => True := by
  rintro world result world' hinv ⟨⟩
  exact ⟨hinv, fun _ _ => trivial⟩

theorem keeps_readLine : Keeps inv Printing.readLine fun _ => True := by
  rintro world result world' hinv ⟨⟩
  exact ⟨hinv, fun _ _ => trivial⟩

theorem keeps_ofMemory {f : Memory → α} (hpost : ∀ memory, inv memory → post (f memory)) :
    Keeps inv (Call.ofEval (Eval.ofMemory f)) post := by
  apply keeps_lift
  rintro world value world' hinv ⟨⟩
  exact ⟨hinv, hpost _ hinv⟩

theorem keeps_updateMemory {f : Memory → α × Memory}
    (hpost : ∀ memory, inv memory → inv (f memory).2 ∧ post (f memory).1) :
    Keeps inv (Call.ofEval (Eval.updateMemory f)) post := by
  apply keeps_lift
  rintro world value world' hinv ⟨⟩
  exact hpost _ hinv

theorem keeps_text (value : Value) :
    Keeps inv (ExceptT.lift (Eval.text value) : ExceptT ε Eval String) fun _ => True := by
  apply keeps_lift
  intro world text world' hinv hrun
  rw [Eval.text, StateT.run_bind] at hrun
  obtain ⟨⟨found, middle⟩, hfound, hrun⟩ := Option.bind_eq_some_iff.mp hrun
  have hmiddle : middle = world := (congrArg Prod.snd (Option.some.inj hfound)).symm
  cases found with
  | none => cases hrun
  | some text =>
      cases hrun
      rw [hmiddle]
      exact ⟨hinv, trivial⟩

/-- Printing leaves memory alone. -/
theorem keeps_printing : Printing.Rules fun _ printing => Keeps inv printing fun _ => True where
  toSequential := keeps_sequential
  write := keeps_write
  text := keeps_text
  contents _ := keeps_lift fun | _, _, _, hinv, rfl => ⟨hinv, trivial⟩
  levels := keeps_lift fun | _, _, _, hinv, rfl => ⟨hinv, trivial⟩
  endless := keeps_lift nofun

theorem keeps_get : Keeps inv (get : ExceptT ε Eval World) fun _ => True := by
  rintro world result world' hinv ⟨⟩
  exact ⟨hinv, fun _ _ => trivial⟩

theorem keeps_readFile (path : String) : Keeps inv (Call.readFile path) fun _ => True := by
  refine keeps_get.bind fun _ _ => ?_
  split
  · exact keeps_pure trivial
  · exact keeps_throw _

theorem keeps_writeFile (path text : String) :
    Keeps inv (Call.writeFile path text) fun _ => True := by
  refine keeps_get.bind fun _ _ => ?_
  split
  · rintro world result world' hinv ⟨⟩
    exact ⟨hinv, fun _ _ => trivial⟩
  · exact keeps_throw _

end

namespace Builtin

/-! ## Calls that leave memory alone -/

section

variable {inv : Memory → Prop} {evaluate : Program → Eval Value}
  {foreign : String → List Value → Call Value}

theorem keeps_array (function : String) (value : Value) :
    Keeps inv (Call.array function value) fun _ => True := by
  cases value with
  | array ref => exact keeps_pure trivial
  | _ => exact keeps_throw _

theorem keeps_string (function : String) (value : Value) :
    Keeps inv (Call.string function value) fun _ => True := by
  cases value with
  | string text => exact keeps_pure trivial
  | _ => exact keeps_throw _

theorem keeps_callLen (value : Value) : Keeps inv (callLen value) Value.IsPlain := by
  cases value with
  | string text => exact keeps_pure trivial
  | array ref =>
      have helements : Keeps inv (Call.ofEval (Eval.ofMemory (·.elements ref)))
          fun _ => True := keeps_ofMemory fun _ _ => trivial
      exact helements.bind fun _ _ => keeps_pure trivial
  | _ => exact keeps_throw _

theorem keeps_put (args : List Value) :
    Keeps inv (Builtin.call evaluate foreign .put args) Value.IsPlain := by
  refine Keeps.bind (keeps_sequential.forIn fun arg _ => ?_) fun _ _ => keeps_pure trivial
  exact ((keeps_printing.valueLine arg).adapt _).bind fun _ _ => keeps_pure trivial

theorem keeps_callGet {post : Value → Prop} (hnull : post .null)
    (hevaluate : ∀ p, Keeps inv (Call.ofEval (evaluate p)) post) :
    Keeps inv (callGet evaluate) post := by
  refine (keeps_readLine.adapt _).bind fun line _ => ?_
  cases line with
  | none => exact keeps_pure hnull
  | some line =>
      by_cases haccept : (parse line).diagnostics.isEmpty
      · simp only [haccept, if_true]
        exact hevaluate _
      · simp only [haccept, Bool.false_eq_true, if_false]
        exact ((keeps_printing.diagnostics _).adapt _).bind fun _ _ => keeps_pure hnull

/-- The functions that neither look into arrays nor evaluate anything deliver plain values and
leave memory alone. -/
theorem keeps_plain {builtin : Builtin} {args : List Value}
    (hbuiltin : builtin ∈ [len, string, put, read, write, clear]) :
    Keeps inv (builtin.call evaluate foreign args) Value.IsPlain := by
  simp only [List.mem_cons, List.not_mem_nil, or_false] at hbuiltin
  rcases hbuiltin with rfl | rfl | rfl | rfl | rfl | rfl
  · rcases args with _ | ⟨value, _ | _⟩
    exacts [keeps_throw _, keeps_callLen value, keeps_throw _]
  · rcases args with _ | ⟨value, _ | _⟩
    exacts [keeps_throw _, (keeps_text value).bind fun _ _ => keeps_pure trivial, keeps_throw _]
  · exact keeps_put args
  · rcases args with _ | ⟨path, _ | _⟩
    · exact keeps_throw _
    · refine (keeps_string "read" path).bind fun path _ => ?_
      exact (keeps_readFile path).bind fun _ _ => keeps_pure trivial
    · exact keeps_throw _
  · rcases args with _ | ⟨path, _ | ⟨value, _ | _⟩⟩
    · exact keeps_throw _
    · exact keeps_throw _
    · refine (keeps_string "write" path).bind fun path _ => ?_
      refine (keeps_text value).bind fun text _ => ?_
      exact (keeps_writeFile path text).bind fun _ _ => keeps_pure trivial
    · exact keeps_throw _
  · cases args with
    | nil => exact ((keeps_write _).adapt _).bind fun _ _ => keeps_pure trivial
    | cons _ _ => exact keeps_throw _

end

/-! ## Well-formed memory -/

/-- What a well-behaved call delivers. -/
abbrev Tame (call : Call Value) : Prop :=
  Keeps Memory.WellFormed call fun value => value.kind ≠ .returned

theorem keeps_newArray {elements : Array Value}
    (helements : ∀ value ∈ elements, value.kind ≠ .returned) :
    Tame (Call.ofEval (Eval.newArray elements)) := by
  apply keeps_lift
  rintro world value world' hmemory ⟨⟩
  exact ⟨hmemory.newArray helements, Value.Kind.noConfusion⟩

theorem keeps_elements (function : String) (value : Value) :
    Keeps Memory.WellFormed (Call.elements function value)
      fun elements => ∀ value ∈ elements, value.kind ≠ .returned := by
  refine (keeps_array function value).bind fun ref _ => keeps_ofMemory ?_
  intro memory hmemory value hvalue
  exact hmemory.kind_of_mem_elements hvalue

theorem tame_callRest (value : Value) : Tame (callRest value) := by
  refine (keeps_elements "rest" value).bind fun elements helements => ?_
  by_cases hempty : elements.isEmpty
  · simp only [hempty, if_true]
    exact keeps_pure Value.Kind.noConfusion
  · simp only [hempty, Bool.false_eq_true, if_false]
    apply keeps_newArray
    intro element helement
    obtain ⟨k, hk, rfl⟩ := Array.mem_extract_iff_getElem.mp helement
    exact helements _ (Array.getElem_mem _)

theorem tame_element {function : String} {value : Value} {select : Array Value → Option Value}
    (hselect : ∀ elements value, select elements = some value → value ∈ elements) :
    Tame (do return (select (← Call.elements function value)).getD .null) := by
  refine (keeps_elements function value).bind fun elements helements => keeps_pure ?_
  cases helement : select elements with
  | none => exact Value.Kind.noConfusion
  | some element => exact helements element (hselect elements element helement)

theorem tame_plain {evaluate : Program → Eval Value} {foreign : String → List Value → Call Value}
    {builtin : Builtin} {args : List Value}
    (hbuiltin : builtin ∈ [len, string, put, read, write, clear]) :
    Tame (builtin.call evaluate foreign args) :=
  (keeps_plain hbuiltin).weaken fun _ => Value.IsPlain.kind_ne_returned

/-- Builtin functions keep memory well-formed and deliver no pending return. -/
theorem tame_call {evaluate : Program → Eval Value} {foreign : String → List Value → Call Value}
    (hevaluate : ∀ p, Tame (Call.ofEval (evaluate p)))
    (hforeign : ∀ name args, Tame (foreign name args)) (builtin : Builtin) {args : List Value}
    (hargs : ∀ arg ∈ args, arg.isAbrupt = false) : Tame (builtin.call evaluate foreign args) := by
  cases builtin with
  | len => exact tame_plain (by decide)
  | string => exact tame_plain (by decide)
  | first =>
      rcases args with _ | ⟨value, _ | _⟩
      exacts [keeps_throw _, tame_element fun _ _ => Array.mem_of_getElem?, keeps_throw _]
  | last =>
      rcases args with _ | ⟨value, _ | _⟩
      exacts [keeps_throw _, tame_element fun _ _ => Array.mem_of_back?, keeps_throw _]
  | rest =>
      rcases args with _ | ⟨value, _ | _⟩
      exacts [keeps_throw _, tame_callRest value, keeps_throw _]
  | push =>
      rcases args with _ | ⟨array, _ | ⟨value, _ | _⟩⟩
      · exact keeps_throw _
      · exact keeps_throw _
      · refine (keeps_elements "push" array).bind fun elements helements => keeps_newArray ?_
        intro element helement
        rcases Array.mem_push.mp helement with hmem | rfl
        · exact helements element hmem
        · exact Value.kind_ne_returned_of_isAbrupt (hargs element (by simp))
      · exact keeps_throw _
  | add =>
      rcases args with _ | ⟨array, _ | ⟨value, _ | _⟩⟩
      · exact keeps_throw _
      · exact keeps_throw _
      · refine (keeps_array "add" array).bind fun ref _ => keeps_updateMemory ?_
        intro memory hmemory
        have hvalue := Value.kind_ne_returned_of_isAbrupt (hargs value (by simp))
        exact ⟨hmemory.append ref hvalue, Value.Kind.noConfusion⟩
      · exact keeps_throw _
  | put => exact tame_plain (by decide)
  | get =>
      cases args with
      | nil => exact keeps_callGet Value.Kind.noConfusion hevaluate
      | cons _ _ => exact keeps_throw _
  | read => exact tame_plain (by decide)
  | write => exact tame_plain (by decide)
  | clear => exact tame_plain (by decide)
  | foreign name => exact hforeign name args

end Builtin

end Monkey
