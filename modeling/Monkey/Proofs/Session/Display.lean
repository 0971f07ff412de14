import Monkey.Proofs.Builtin.Output
import Monkey.Proofs.Evaluation.Dialect
import Monkey.Proofs.Evaluation.Known
import Monkey.Proofs.Program.RoundTrip
import Monkey.Proofs.Session

/-! # Displayed functions are source texts

The text of a function differs from the canonical text of its literal in its blanks only, so it is
read as that literal, provided that the literal can be written. Every function of a session comes
from a source or a line that was read, and all of these can be written.
-/

namespace Monkey

/-! ## The text of a function -/

namespace Function

/-- The literal that the function comes from. -/
def literal (function : Function) : Expr :=
  .function function.params function.body

/-- The text that shows the function. -/
def text (function : Function) : String :=
  "fn(" ++ ", ".intercalate function.params ++ ") " ++ Block.render function.body

/-- The text of a function is read as a program that consists of its literal, blanks behind it
aside. -/
theorem parse_text {function : Function} (hfunction : function.literal.Spellable) {blanks : String}
    (hblanks : ∀ c ∈ blanks.toList, Token.isSpace c = true) :
    parse (function.text ++ blanks) = ⟨[.expr function.literal], []⟩ := by
  obtain ⟨hparams, hbody⟩ := hfunction
  have htext : (function.text ++ blanks).toList = ("fn".toList ++ '(' ::
      ((", ".intercalate function.params).toList ++
        ')' :: ([' '] ++ (braced function.body (renderStmts function.body)).toList))) ++
      (blanks.toList ++ []) := by
    simp [text, Block.render]
  have hspells : Token.Spells (function.text ++ blanks).toList [] fun ts =>
      Grammar.Statements ts [.expr function.literal] := by
    have hspace : ∀ c ∈ [' '], Token.isSpace c = true := List.forall_mem_singleton.mpr rfl
    rw [htext]
    apply Token.Spells.append
      (spells_function rfl hspace hspace hparams (SpellableStmts.spelled _ hbody) _)
    intro ts hts
    apply Token.Spells.spaces hblanks
    have hdelimited : Grammar.Delimited (.expr function.literal) [] := by simp [Grammar.Delimited]
    exact .nil (.bare (.expr hts.chain) hdelimited .nil)
  exact Grammar.Statements.parseProgram_eq hspells.tokenize

end Function

section

variable {world : World} {value : Value} {text : String}

theorem Memory.text?_function {memory : Memory} {ref : FunctionRef} {function : Function}
    (hfunction : memory.function? ref = some function) :
    memory.text? (.function ref) = some function.text := by
  rw [text?, unfold, Value.unfoldWith, hfunction]
  rfl

/-! ## The functions that show a value -/

variable {session : Session} (fuel : Nat)

theorem Session.run_string (htext : world.memory.text? value = some text) :
    (session.apply (fuel + 1) (.builtin .string) [value]).run world =
      some (.string text, world) := by
  change (Eval.settle (Call.ofEval (Eval.text value) >>= fun text =>
    pure (Value.string text))).run world = _
  rw [run_settle, run_bind, run_callText, htext]
  rfl

theorem Session.run_put (htext : world.memory.text? value = some text) :
    (session.apply (fuel + 1) (.builtin .put) [value]).run world =
      some (.ofExcept (((world.console.write (text ++ "\n")).1.mapError .console).map
        fun _ => .null), { world with console := (world.console.write (text ++ "\n")).2 }) := by
  have hcomplete : (world.memory.excerptLines world.levels [value]).complete? =
      some (text ++ "\n") := by
    rw [Memory.excerptLines, Excerpt.complete?_append,
      Memory.complete?_excerptLine htext world.size_lt_levels]
    exact congrArg some String.append_empty
  change (Eval.settle (Builtin.call _ _ .put [value])).run world = _
  rw [run_settle, Builtin.run_put, Excerpt.answer_of_complete? hcomplete]
  rcases world.console.write (text ++ "\n") with ⟨failure | _, console⟩
  · rfl
  · rfl

theorem Session.run_write (path : String) (htext : world.memory.text? value = some text) :
    (session.apply (fuel + 1) (.builtin .write) [.string path, value]).run world =
      some (match world.files.write path text.toUTF8 with
        | .ok files => (.null, { world with files })
        | .error failure => (Fault.toValue (.unwritable path failure), world)) := by
  change (Eval.settle (Call.ofEval (Eval.text value) >>= fun text =>
    Call.writeFile path text >>= fun _ => pure Value.null)).run world = _
  rw [run_settle, run_bind, run_callText, htext, Option.map_some]
  dsimp only
  rw [run_bind, run_writeFile]
  cases world.files.write path text.toUTF8 with
  | error failure => rfl
  | ok files => rfl

end

/-! ## Functions of a session -/

theorem World.exists_parse_of_programLine? {world started : World} {p : Program}
    (hline : world.programLine? = some (p, started)) : ∃ line, p = (parse line).program := by
  unfold programLine? at hline
  split at hline
  next line _ _ =>
    split at hline
    · cases hline
      exact ⟨line, rfl⟩
    · cases hline
  · cases hline

theorem Dialect.spellable_hears (plan : Plan) : spellable.Hears plan := by
  intro session world p started _ hline
  obtain ⟨line, rfl⟩ := World.exists_parse_of_programLine? hline
  exact spellable_block_parse line

namespace Session

variable {session : Session} {world world' : World}

theorem requires_spellable (hsession : session.Closed) (source : String)
    (hmemory : Dialect.spellable.memory world.memory) :
    (Dialect.spellable.speech .all).requires session
      (.program session.top (parse source).program) world :=
  Dialect.requires_all hsession (Dialect.spellable_block_parse source) hmemory
    (Dialect.spellable_hears _)

theorem Rests.spellable (hrests : session.Rests world) :
    Dialect.spellable.memory world.memory := by
  refine hrests.keeps ?_ fun _ source _ _ _ hmemory hrun => ?_
  · rintro _ _ _ _ ⟨⟩
    exact fun function hfunction => absurd hfunction (Array.not_mem_empty function)
  · exact Dialect.covers_all_iff.mp (ensures_of_evalProgram (Dialect.kept_speech _ _)
      (requires_spellable hrests.closed source hmemory) hrun).2.1

theorem Passes.spellable {values : List Value} (hpasses : session.Passes world values) :
    Dialect.spellable.memory world.memory :=
  Dialect.covers_all_iff.mp <|
    hpasses.moment_of_kept (Dialect.kept_speech _ _) (fun _ hrests => hrests.spellable)
      (fun _ => Dialect.covers_all_iff.mpr) fun source _ hmemory =>
        requires_spellable hpasses.closed source hmemory

theorem Rests.defined (hrests : session.Rests world) : Custody.defined.memory world.memory := by
  have hsources : session.KeptBySources Custody.defined.memory := by
    intro _ _ _ _ _ hmemory hrun
    exact (ensures_of_evalProgram Custody.defined.kept
      ⟨hrests.closed, trivial, hmemory, nofun⟩ hrun).2.2.1
  refine hrests.keeps ?_ hsources
  rintro _ _ _ _ ⟨⟩
  exact Memory.Each.empty.newFrame none

theorem Passes.defined {values : List Value} (hpasses : session.Passes world values) :
    Custody.defined.contract.moment world values :=
  hpasses.moment_of_kept Custody.defined.kept (fun _ hrests => hrests.defined)
    (fun _ hmemory => ⟨hmemory, nofun⟩) fun _ _ hmemory =>
      ⟨hpasses.closed, trivial, hmemory, nofun⟩

end Session

theorem Memory.Each.defined_of_holds {memory : Memory} {value : Value}
    (hmemory : Custody.defined.memory memory) (hheld : memory.Holds value) :
    value.Defined memory.functions.size := by
  induction hheld with
  | bound hframe hget => exact hmemory.bound hframe hget
  | element harray hvalue => exact hmemory.element harray hvalue
  | carried _ ih => exact ih

namespace Session

variable {session : Session} {world world' : World}

/-- The value of a source is among the values of the last moment of its evaluation. -/
theorem Rests.passes_of_evalSource {fuel : Nat} {text : String} {value : Value}
    (hrests : session.Rests world)
    (hrun : (session.evalSource fuel text).run world = some (.ok value, world')) :
    session.Passes world' [value] := by
  unfold Session.evalSource at hrun
  by_cases haccept : (parse text).diagnostics.isEmpty
  · simp only [haccept, if_true] at hrun
    rw [StateT.run_bind] at hrun
    obtain ⟨⟨value, middle⟩, hvalue, hresult⟩ := Option.bind_eq_some_iff.mp hrun
    cases hresult
    exact .evalSource hrests haccept (exists_run_evalProgram_iff.mp ⟨fuel, hvalue⟩).reaches
  · simp only [haccept, Bool.false_eq_true, if_false] at hrun
    cases hrun

/-- Whatever sources a session has evaluated, the text of a function that it holds is read without a
diagnostic, as an expression statement with the literal of that function. `string` delivers this
text, `put` writes it with a line feed behind it, and `write` puts it into a file. -/
theorem passes_function_reads_back {values : List Value} (hpasses : session.Passes world values)
    {ref : FunctionRef}
    (hheld : world.memory.Holds (.function ref) ∨ .function ref ∈ values) :
    ∃ function text, world.memory.function? ref = some function ∧
      world.memory.text? (.function ref) = some text ∧
      parse text = ⟨[.expr (.function function.params function.body)], []⟩ ∧
      parse (text ++ "\n") = ⟨[.expr (.function function.params function.body)], []⟩ ∧
      ∀ fuel,
        (session.apply (fuel + 1) (.builtin .string) [.function ref]).run world =
          some (.string text, world) ∧
        (session.apply (fuel + 1) (.builtin .put) [.function ref]).run world =
          some (.ofExcept (((world.console.write (text ++ "\n")).1.mapError .console).map
            fun _ => .null), { world with console := (world.console.write (text ++ "\n")).2 }) ∧
        ∀ path,
          (session.apply (fuel + 1) (.builtin .write) [.string path, .function ref]).run world =
            some (match world.files.write path text.toUTF8 with
              | .ok files => (.null, { world with files })
              | .error failure => (Fault.toValue (.unwritable path failure), world)) := by
  have hdefined : (Value.function ref).Defined world.memory.functions.size := by
    obtain ⟨hmemory, hvalues⟩ := hpasses.defined
    rcases hheld with hheld | hvalue
    · exact hmemory.defined_of_holds hheld
    · exact hvalues _ hvalue
  obtain ⟨function, hfunction⟩ : ∃ function, world.memory.function? ref = some function :=
    ⟨_, Array.getElem?_eq_getElem hdefined⟩
  have hspellable := hpasses.spellable _ (Array.mem_of_getElem? hfunction)
  have htext := Memory.text?_function hfunction
  have hparse : parse function.text = ⟨[.expr function.literal], []⟩ := by
    have hblanks : parse (function.text ++ "") = ⟨[.expr function.literal], []⟩ :=
      Function.parse_text hspellable nofun
    rwa [String.append_empty] at hblanks
  exact ⟨_, _, hfunction, htext, hparse,
    Function.parse_text hspellable (List.forall_mem_singleton.mpr rfl), fun fuel =>
    ⟨run_string fuel htext, run_put fuel htext, fun path => run_write fuel path htext⟩⟩

/-- A function that another one has created is shown and read back. -/
theorem composition_reads_back :
    ∃ world function, Session.fresh.Passes world [.function ⟨1⟩] ∧
      world.memory.function? ⟨1⟩ = some function ∧
      world.memory.text? (.function ⟨1⟩) = some "fn(x, y) \x7b\nf(g(x),y)\n\x7d" ∧
      parse "fn(x, y) \x7b\nf(g(x),y)\n\x7d" =
        ⟨[.expr (.function function.params function.body)], []⟩ := by
  have hnew : (Session.create .standard).run (.initial (.ofInput []) .empty) =
      some (.fresh, .fresh) := rfl
  have hrun : ((Session.fresh.evalSource 20
      "let compose = fn(f, g) \x7b fn(x, y) \x7b f(g(x), y) \x7d \x7d; compose(push, rest)").run
        .fresh).map (fun reply => (reply.1.toOption, reply.2.memory.text? (.function ⟨1⟩))) =
      some (some (.function ⟨1⟩), some "fn(x, y) \x7b\nf(g(x),y)\n\x7d") := by
    decide +kernel
  obtain ⟨⟨result, world⟩, hreply, heq⟩ := Option.map_eq_some_iff.mp hrun
  obtain ⟨hresult, hshown⟩ := Prod.mk.inj heq
  cases result with
  | error diagnostics => cases hresult
  | ok value =>
      cases hresult
      have hpasses := (Rests.new hnew).passes_of_evalSource hreply
      obtain ⟨function, text, hfunction, htext, hparse, -⟩ :=
        passes_function_reads_back hpasses (.inr List.mem_cons_self)
      obtain rfl : "fn(x, y) \x7b\nf(g(x),y)\n\x7d" = text :=
        Option.some.inj (hshown.symm.trans htext)
      exact ⟨world, function, hpasses, hfunction, hshown, hparse⟩

end Session

end Monkey
