import Monkey.Proofs.Host.Output
import Monkey.Proofs.Memory.Excerpt

/-! # Values on the console

A line that shows a value is written piece by piece, and comes down to an excerpt
(`run_valueLine`). If nothing is left out of it, the line is the text of the value. Otherwise the
value is an array that contains itself: a bounded output is closed before the excerpt ends, and with
an unbounded one there is no answer.
-/

namespace Monkey

open Host

/-! ## Excerpts on the console -/

theorem World.size_lt_levels (world : World) : world.memory.arrays.size < world.levels := by
  rw [levels]
  omega

/-- What comes of writing the excerpt; no answer if it leaves something out. -/
def Excerpt.answer (excerpt : Excerpt) (world : World) :
    Option (Except Host.Failure Unit × World) :=
  match world.console.writeAll excerpt.texts with
  | (.ok (), console) => if excerpt.whole then some (.ok (), { world with console }) else none
  | (.error failure, console) => some (.error failure, { world with console })

/-- The computation writes an excerpt that depends on memory and does nothing else. -/
def Writes (computation : Printing Unit) (excerpt : Memory → Excerpt) : Prop :=
  ∀ world : World, computation.run.run world = (excerpt world.memory).answer world

namespace Excerpt

variable {first second excerpt : Excerpt} {world : World}

/-- Writing changes the console only, and not its bounds. -/
theorem world_of_answer {result : Except Host.Failure Unit} {world' : World}
    (hanswer : excerpt.answer world = some (result, world')) :
    ∃ console, console.capacity = world.console.capacity ∧ { world with console } = world' := by
  have hcapacity : (world.console.writeAll excerpt.texts).2.capacity = world.console.capacity := by
    rw [Console.writeAll_eq_write]
    rfl
  rw [answer] at hanswer
  split at hanswer
  next hwrite =>
    rw [hwrite] at hcapacity
    split at hanswer
    · cases hanswer
      exact ⟨_, hcapacity, rfl⟩
    · cases hanswer
  next hwrite =>
    rw [hwrite] at hcapacity
    cases hanswer
    exact ⟨_, hcapacity, rfl⟩

theorem answer_append (first second : Excerpt) (world : World) :
    (first ++ second).answer world =
      match first.answer world with
      | none => none
      | some (.error failure, world) => some (.error failure, world)
      | some (.ok (), world) => second.answer world := by
  cases hwhole : first.whole with
  | true =>
      rw [append_of_whole hwhole, answer, answer, Console.writeAll_append, hwhole]
      rcases world.console.writeAll first.texts with ⟨failure | _, console⟩
      · rfl
      · rfl
  | false =>
      rw [append_of_cut hwhole, answer, hwhole]
      rcases world.console.writeAll first.texts with ⟨failure | _, console⟩
      · rfl
      · rfl

/-- What leaves nothing out is written as one text. -/
theorem answer_of_complete? {text : String} (hcomplete : excerpt.complete? = some text)
    (world : World) : excerpt.answer world = some ((world.console.write text).1,
      { world with console := (world.console.write text).2 }) := by
  rw [complete?] at hcomplete
  split at hcomplete
  next hwhole =>
    cases hcomplete
    rw [answer, hwhole, Console.writeAll_eq_write, Excerpt.text]
    rcases world.console.write (String.join excerpt.texts) with ⟨failure | _, console⟩
    · rfl
    · rfl
  next => cases hcomplete

/-- What is refused of the beginning is refused of the whole. -/
theorem Begins.refused {failure : Host.Failure} {console console' : Console}
    (hbegins : first.Begins second)
    (hwrite : console.writeAll first.texts = (.error failure, console')) :
    console.writeAll second.texts = (.error failure, console') := by
  obtain ⟨rest, hrest⟩ := hbegins.texts
  rw [← hrest, Console.writeAll_append, hwrite]

/-- A bounded output is closed before as many bytes have been written as levels are shown. -/
theorem refused_of_cut {capacity : Nat} (hcapacity : world.console.capacity = some capacity)
    (hsize : world.levels ≤ excerpt.size) :
    ∃ console, world.console.writeAll excerpt.texts = (.error .outputClosed, console) := by
  have hroom : world.console.room excerpt.size < excerpt.size := by
    rw [World.levels, hcapacity, Option.getD_some] at hsize
    rw [Console.room, hcapacity]
    dsimp only
    omega
  rw [Console.writeAll_eq_write]
  exact ⟨_, Prod.ext (if_pos hroom) rfl⟩

/-- What is refused at some depth is refused with as many levels as are written. -/
theorem Deepens.refused {excerpts : Nat → Excerpt} {depth : Nat} {failure : Host.Failure}
    {console : Console} (hdeepens : Deepens excerpts)
    (hwrite : world.console.writeAll (excerpts depth).texts = (.error failure, console)) :
    world.console.writeAll (excerpts world.levels).texts = (.error failure, console) := by
  rcases Nat.le_total depth world.levels with hle | hle
  · exact (hdeepens.begins hle).refused hwrite
  · have hbegins := hdeepens.begins hle
    cases hwhole : (excerpts world.levels).whole with
    | true => rwa [hbegins.eq hwhole] at hwrite
    | false =>
        -- The output is bounded, so it is closed before the shorter excerpt ends.
        obtain ⟨capacity, hcapacity⟩ := Console.bounded_of_writeAll hwrite
        obtain ⟨closed, hclosed⟩ := refused_of_cut hcapacity (hdeepens.le_size hwhole)
        rw [hclosed, ← hwrite, hbegins.refused hclosed]

end Excerpt

namespace Writes

theorem write (text : String) : Writes (Printing.write text) fun _ => .all [text] := by
  intro world
  change some ((world.console.write text).1,
    { world with console := (world.console.write text).2 }) = _
  rw [Excerpt.answer, Excerpt.all, Console.writeAll_eq_write, String.join_cons, String.join_nil,
    String.append_empty]
  rcases world.console.write text with ⟨failure | _, console⟩
  · rfl
  · rfl

theorem text (value : Value) :
    Writes (do Printing.write (← Printing.ofEval (Eval.text value))) fun memory =>
      (memory.text? value).elim .cut fun text => .all [text] := by
  intro world
  rw [run_bind, Printing.ofEval, run_lift, run_text]
  dsimp only
  cases world.memory.text? value with
  | none => rfl
  | some text => exact write text world

theorem pure : Writes (Pure.pure ()) fun _ => .all [] :=
  fun _ => rfl

theorem endless : Writes (Printing.ofEval failure) fun _ => .cut :=
  fun _ => rfl

theorem bind {first : Printing Unit} {next : Unit → Printing Unit}
    {excerpt excerpt' : Memory → Excerpt} (hfirst : Writes first excerpt)
    (hnext : Writes (next ()) excerpt') :
    Writes (first >>= next) fun memory => excerpt memory ++ excerpt' memory := by
  intro world
  rw [run_bind, hfirst, Excerpt.answer_append]
  rcases hanswer : (excerpt world.memory).answer world with _ | ⟨failure | _, middle⟩
  · rfl
  · rfl
  · obtain ⟨console, -, rfl⟩ := Excerpt.world_of_answer hanswer
    exact hnext { world with console }

theorem ofMemory {α : Type} (f : Memory → α) {next : α → Printing Unit}
    {excerpt : α → Memory → Excerpt} (hnext : ∀ a, Writes (next a) (excerpt a)) :
    Writes (Printing.ofEval (Eval.ofMemory f) >>= next)
      fun memory => excerpt (f memory) memory := by
  intro world
  have hread : (Printing.ofEval (Eval.ofMemory f)).run.run world =
      some (.ok (f world.memory), world) := rfl
  rw [run_bind, hread]
  exact hnext (f world.memory) world

/-! ## Values -/

theorem elements {element : Value → Printing Unit} {excerpt : Memory → Value → Excerpt}
    (helement : ∀ value, Writes (element value) (excerpt · value)) :
    ∀ values, Writes (Printing.elements element values) fun memory =>
      .elements (excerpt memory) values
  | [] => pure
  | [last] => helement last
  | first :: second :: rest =>
      (helement first).bind ((write ", ").bind (elements helement (second :: rest)))

theorem valueWith {array : ArrayRef → Printing Unit} {excerpt : Memory → ArrayRef → Excerpt}
    (harray : ∀ ref, Writes (array ref) (excerpt · ref)) (value : Value) :
    Writes (Printing.valueWith array value) fun memory =>
      value.excerptWith memory (excerpt memory) := by
  induction value with
  | array ref => exact harray ref
  | returned value ih => exact ih
  | _ => exact text _

theorem array (depth : Nat) (ref : ArrayRef) :
    Writes (Printing.array depth ref) (·.excerptArray depth ref) := by
  induction depth generalizing ref with
  | zero => exact endless
  | succ depth ih =>
      have hcontents (contents : Array Value) :
          Writes (do
            Printing.elements (Printing.valueWith (Printing.array depth)) contents.toList
            Printing.write "]") fun memory =>
              .elements (·.excerptWith memory (memory.excerptArray depth)) contents.toList ++
                .all ["]"] :=
        (elements (valueWith ih) contents.toList).bind (write "]")
      exact (write "[").bind (ofMemory (·.elements ref) hcontents)

end Writes

/-- A line that shows a value is an excerpt with as many levels as are written. -/
theorem run_valueLine (value : Value) (world : World) :
    (Printing.valueLine value).run.run world =
      (world.memory.excerptLine world.levels value).answer world := by
  have hlevels : (Printing.ofEval Eval.levels).run.run world = some (.ok world.levels, world) := rfl
  have hline : Writes (do
      Printing.valueWith (Printing.array world.levels) value
      Printing.write "\n") (·.excerptLine world.levels value) :=
    (Writes.valueWith (.array world.levels) value).bind (.write "\n")
  rw [Printing.valueLine, run_bind, hlevels]
  exact hline world

variable {value : Value} {world world' : World}

/-- A value that has a text is shown by that text. -/
theorem run_valueLine_of_text {text : String} (htext : world.memory.text? value = some text) :
    (Printing.valueLine value).run.run world = (Printing.writeLine text).run.run world := by
  rw [run_valueLine,
    Excerpt.answer_of_complete? (Memory.complete?_excerptLine htext world.size_lt_levels)]
  rfl

/-- The line that shows a value holds its text, or, of an array that contains itself, as much as the
output has room for. -/
theorem exists_print_of_valueLine {result : Except Host.Failure Unit}
    (hrun : (Printing.valueLine value).run.run world = some (result, world')) :
    ∃ shown, world.console.print [shown] = (result, world'.console) ∧
      world' = { world with console := world'.console } ∧
      (world.memory.text? value = some shown ∨
        world.memory.text? value = none ∧ (∃ failure, result = .error failure) ∧
          ∃ depth, shown = (world.memory.excerpt depth value).text) := by
  cases htext : world.memory.text? value with
  | some text =>
      rw [run_valueLine_of_text htext, prints_writeLine] at hrun
      cases hrun
      exact ⟨text, rfl, rfl, .inl rfl⟩
  | none =>
      have hcut : (world.memory.excerpt world.levels value).whole = false := by
        rw [Memory.text?_eq_complete? world.size_lt_levels, Excerpt.complete?] at htext
        simpa using htext
      rw [run_valueLine, Memory.excerptLine, Excerpt.append_of_cut hcut, Excerpt.answer,
        hcut] at hrun
      refine ⟨(world.memory.excerpt world.levels value).text, ?_⟩
      rw [Console.print_eq_write, List.map_singleton, String.join_cons, String.join_nil,
        String.append_empty, Console.write_append, Excerpt.text, ← Console.writeAll_eq_write]
      rcases hwrite : world.console.writeAll (world.memory.excerpt world.levels value).texts with
        ⟨failure | _, console⟩
      · rw [hwrite] at hrun
        cases hrun
        exact ⟨rfl, rfl, .inr ⟨rfl, ⟨_, rfl⟩, _, rfl⟩⟩
      · rw [hwrite] at hrun
        cases hrun

end Monkey
