import Monkey.Builtin.Call

/-! # Computations in sequence

Computations run one after the other until one of them fails or has no answer. A property of single
computations that sequences inherit is one of loops (`Sequential.forIn`) and of all that is printed
(`Printing.Rules.valueLine`, `Printing.Rules.diagnostics`).
-/

namespace Monkey

section

variable {ε α β : Type}

theorem run_bind (call : ExceptT ε Eval α) (next : α → ExceptT ε Eval β) (world : World) :
    (call >>= next).run.run world =
      match call.run.run world with
      | none => none
      | some (.error failure, world) => some (.error failure, world)
      | some (.ok result, world) => (next result).run.run world := by
  rw [ExceptT.run_bind, StateT.run_bind]
  rcases call.run.run world with _ | ⟨_ | _, world'⟩
  · rfl
  · rfl
  · rfl

theorem run_lift (evaluation : Eval α) (world : World) :
    (ExceptT.lift evaluation : ExceptT ε Eval α).run.run world =
      (evaluation.run world).map (.map .ok id) := by
  change (Except.ok <$> evaluation).run world = _
  rw [StateT.run_map]
  rfl

theorem run_text (value : Value) (world : World) :
    (Eval.text value).run world = (world.memory.text? value).map (·, world) := by
  have hmemory : (Eval.ofMemory (·.text? value)).run world =
      some (world.memory.text? value, world) := rfl
  rw [Eval.text, StateT.run_bind, hmemory]
  cases world.memory.text? value with
  | none => rfl
  | some text => rfl

end

/-! ## Printing as part of a call -/

namespace Call

variable {α β : Type}

theorem run_ofPrinting (printing : Printing α) (world : World) :
    (ofPrinting printing).run.run world =
      (printing.run.run world).map (.map (.mapError .console) id) := by
  change (Except.mapError Fault.console <$> printing.run).run world = _
  rw [StateT.run_map]
  rfl

theorem ofPrinting_bind (first : Printing α) (next : α → Printing β) :
    ofPrinting (first >>= next) = ofPrinting first >>= fun a => ofPrinting (next a) := by
  refine ExceptT.ext (StateT.ext fun world => ?_)
  rw [run_ofPrinting, run_bind, run_bind, run_ofPrinting]
  rcases first.run.run world with _ | ⟨failure | a, middle⟩
  · rfl
  · rfl
  · exact (run_ofPrinting (next a) middle).symm

theorem ofPrinting_ofEval (evaluation : Eval α) :
    ofPrinting (Printing.ofEval evaluation) = ofEval evaluation := by
  refine ExceptT.ext (StateT.ext fun world => ?_)
  rw [run_ofPrinting, Printing.ofEval, ofEval, run_lift, run_lift]
  cases evaluation.run world with
  | none => rfl
  | some reply => rfl

end Call

/-! ## Inherited properties -/

/-- A property that sequences of computations inherit. -/
structure Sequential {m : Type → Type} [Monad m] (P : (α : Type) → m α → Prop) : Prop where
  pure : ∀ {α : Type} (value : α), P α (pure value)
  bind : ∀ {α β : Type} {first : m α} {next : α → m β}, P α first →
    (∀ value, P β (next value)) → P β (first >>= next)

/-- Loops over lists inherit it too. -/
theorem Sequential.forIn {m : Type → Type} [Monad m] {P : (α : Type) → m α → Prop}
    (hP : Sequential P) {α β : Type} {items : List α} {state : β}
    {body : α → β → m (ForInStep β)} (hbody : ∀ item state, P _ (body item state)) :
    P _ (forIn items state body) := by
  induction items generalizing state with
  | nil => exact hP.pure _
  | cons item rest ih =>
      rw [List.forIn_cons]
      refine hP.bind (hbody item state) fun step => ?_
      cases step with
      | done state => exact hP.pure _
      | yield state => exact ih

namespace Printing

/-- The steps that printing is made of have the property, and sequences inherit it. -/
structure Rules (P : (α : Type) → Printing α → Prop) : Prop extends Sequential P where
  write : ∀ text, P _ (Printing.write text)
  text : ∀ value, P _ (ofEval (Eval.text value))
  contents : ∀ ref, P _ (ofEval (Eval.ofMemory fun memory => memory.elements ref))
  levels : P _ (ofEval Eval.levels)
  endless : P Unit (ofEval failure)

namespace Rules

variable {P : (α : Type) → Printing α → Prop} (rules : Rules P)

include rules

theorem diagnostics (diagnostics : List Diagnostic) : P _ (Printing.diagnostics diagnostics) := by
  refine rules.bind (rules.write _) fun _ => rules.bind (rules.forIn fun diagnostic _ => ?_)
    fun _ => rules.pure _
  exact rules.bind (rules.write _) fun _ => rules.pure _

theorem elements {element : Value → Printing Unit} (helement : ∀ value, P _ (element value)) :
    ∀ values, P _ (Printing.elements element values)
  | [] => rules.pure _
  | [last] => helement last
  | first :: second :: rest =>
      rules.bind (helement first) fun _ => rules.bind (rules.write _) fun _ =>
        elements helement (second :: rest)

theorem valueWith {array : ArrayRef → Printing Unit} (harray : ∀ ref, P _ (array ref))
    (value : Value) : P _ (Printing.valueWith array value) := by
  induction value with
  | array ref => exact harray ref
  | returned value ih => exact ih
  | _ => exact rules.bind (rules.text _) fun text => rules.write text

theorem array (depth : Nat) (ref : ArrayRef) : P _ (Printing.array depth ref) := by
  induction depth generalizing ref with
  | zero => exact rules.endless
  | succ depth ih =>
      refine rules.bind (rules.write _) fun _ => rules.bind (rules.contents ref) fun contents => ?_
      exact rules.bind (rules.elements (rules.valueWith ih) _) fun _ => rules.write _

theorem valueLine (value : Value) : P _ (Printing.valueLine value) := by
  refine rules.bind rules.levels fun depth => ?_
  exact rules.bind (rules.valueWith (rules.array depth) value) fun _ => rules.write _

end Rules

end Printing

end Monkey
