import Monkey.Proofs.Builtin.Rules

/-! # Builtin functions do not look at frames

A builtin function works with arrays, functions, the console and files. With other frames in memory
it does the same, and the frames stay as they are (`Builtin.frameBlind_call`).
-/

namespace Monkey

/-- Memory with other frames. -/
def Memory.withFrames (memory : Memory) (frames : Array Frame) : Memory :=
  { memory with frames }

/-- The world with other frames. -/
def World.withFrames (world : World) (frames : Array Frame) : World :=
  { world with memory := world.memory.withFrames frames }

theorem Value.unfoldWith_withFrames {memory : Memory} {frames : Array Frame}
    {array : ArrayRef → Unfolded} {value : Value} :
    value.unfoldWith (memory.withFrames frames) array = value.unfoldWith memory array := by
  induction value with
  | returned value ih => exact congrArg Unfolded.returned ih
  | _ => rfl

namespace Memory

variable (memory : Memory) (frames : Array Frame)

theorem unfoldArray_withFrames (depth : Nat) (path : List ArrayRef) (ref : ArrayRef) :
    (memory.withFrames frames).unfoldArray depth path ref = memory.unfoldArray depth path ref := by
  induction depth generalizing path ref with
  | zero => rfl
  | succ depth ih =>
      rw [unfoldArray, unfoldArray]
      split
      · rfl
      · refine congrArg Unfolded.array (List.map_congr_left fun value _ => ?_)
        rw [Value.unfoldWith_withFrames]
        exact congrArg (value.unfoldWith memory) (funext fun ref' => ih (ref :: path) ref')

/-- The text of a value does not depend on frames. -/
theorem text?_withFrames (value : Value) :
    (memory.withFrames frames).text? value = memory.text? value := by
  have harray : (memory.withFrames frames).unfoldArray (memory.arrays.size + 1) [] =
      memory.unfoldArray (memory.arrays.size + 1) [] :=
    funext fun ref => unfoldArray_withFrames memory frames _ _ ref
  rw [text?, text?, unfold, unfold, Value.unfoldWith_withFrames]
  exact congrArg (fun array => (value.unfoldWith memory array).text?) harray

end Memory

/-- The call does the same with other frames, and leaves them alone. -/
def FrameBlind {α : Type} (call : Call α) : Prop :=
  ∀ world frames, call.run.run (world.withFrames frames) =
    (call.run.run world).map fun reply => (reply.1, reply.2.withFrames frames)

theorem FrameBlind.bind {α β : Type} {first : Call α} {next : α → Call β}
    (hfirst : FrameBlind first) (hnext : ∀ value, FrameBlind (next value)) :
    FrameBlind (first >>= next) := by
  intro world frames
  rw [run_bind, run_bind, hfirst]
  rcases first.run.run world with _ | ⟨fault | value, middle⟩
  · rfl
  · rfl
  · exact hnext value middle frames

theorem FrameBlind.frames_eq {α : Type} {call : Call α} (hcall : FrameBlind call)
    {world world' : World} {result : Except Fault α}
    (hrun : call.run.run world = some (result, world')) :
    world'.memory.frames = world.memory.frames := by
  have hsame := hcall world world.memory.frames
  change call.run.run world = _ at hsame
  rw [hrun] at hsame
  exact congrArg (·.2.memory.frames) (Option.some.inj hsame)

theorem frameBlind_text (value : Value) : FrameBlind (Call.ofEval (Eval.text value)) := by
  intro world frames
  rw [run_callText, run_callText]
  change Option.map _ ((world.memory.withFrames frames).text? value) = _
  rw [Memory.text?_withFrames, Option.map_map]
  rfl

theorem frameBlind_rules : Builtin.HostRules fun _ call => FrameBlind call where
  pure _ _ _ := rfl
  bind := .bind
  fail _ _ _ := rfl
  elements _ _ _ := rfl
  text := frameBlind_text
  newArray _ _ _ := rfl
  append _ _ _ _ := rfl
  readFile path world frames := by
    rw [run_readFile, run_readFile]
    rfl
  writeFile path text world frames := by
    rw [run_writeFile, run_writeFile]
    rfl
  write _ _ _ := rfl
  levels _ _ := rfl
  endless _ _ := rfl
  readLine _ _ := rfl

theorem World.programLine?_withFrames (world : World) (frames : Array Frame) :
    (world.withFrames frames).programLine? =
      world.programLine?.map fun line => (line.1, line.2.withFrames frames) := by
  unfold World.programLine?
  rw [show (world.withFrames frames).console = world.console from rfl]
  rcases world.console.readLine with ⟨failure | _ | line, console⟩
  · rfl
  · rfl
  · by_cases haccept : (parse line).diagnostics.isEmpty
    · simp only [haccept, if_true]
      rfl
    · simp only [haccept, Bool.false_eq_true, if_false]
      rfl

/-- Builtin functions do not look at frames. -/
theorem Builtin.frameBlind_call (builtin : Builtin) (args : List Value) :
    FrameBlind (builtin.call (fun _ => failure) (fun name _ => throw (.unbound name)) args) :=
  frameBlind_rules.call (fun _ _ _ => rfl) builtin args

end Monkey
