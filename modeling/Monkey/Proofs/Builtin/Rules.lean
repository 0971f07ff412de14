import Monkey.Proofs.Builtin

/-! # Rules for calls of builtin functions

Builtin functions are put together from a few steps. A property of computations that these steps
have, and that sequences of computations inherit, is one of every call (`Builtin.Rules.call`).
-/

namespace Monkey.Builtin

/-- The steps that work on values alone have the property, and sequences inherit it. -/
structure Rules (P : (α : Type) → Call α → Prop) : Prop extends Sequential P where
  fail : ∀ {α : Type} {fault : Fault}, (∀ failure, fault ≠ .console failure) → P α (throw fault)
  elements : ∀ ref, P _ (Call.ofEval (Eval.ofMemory fun memory => memory.elements ref))
  text : ∀ value, P _ (Call.ofEval (Eval.text value))
  newArray : ∀ elements, P _ (Call.ofEval (Eval.newArray elements))
  append : ∀ ref value, P _ (Call.ofEval (Eval.updateMemory fun memory =>
    (Value.null, memory.append ref value)))

/-- The steps that reach files have the property too. -/
structure FileRules (P : (α : Type) → Call α → Prop) : Prop extends Rules P where
  readFile : ∀ path, P _ (Call.readFile path)
  writeFile : ∀ path text, P _ (Call.writeFile path text)

/-- The steps that print have the property as well. -/
structure OutputRules (P : (α : Type) → Call α → Prop) : Prop extends FileRules P where
  write : ∀ text, P _ (Call.ofPrinting (Printing.write text))
  levels : P _ (Call.ofEval Eval.levels)
  endless : P Unit (Call.ofEval failure)

/-- All steps have the property. -/
structure HostRules (P : (α : Type) → Call α → Prop) : Prop extends OutputRules P where
  readLine : P _ (Call.ofPrinting Printing.readLine)

section

variable {P : (α : Type) → Call α → Prop} {evaluate : Program → Eval Value}

namespace Rules

theorem array (rules : Rules P) (function : String) (value : Value) :
    P _ (Call.array function value) := by
  cases value with
  | array ref => exact rules.pure ref
  | _ => exact rules.fail nofun

theorem elementsOf (rules : Rules P) (function : String) (value : Value) :
    P _ (Call.elements function value) :=
  rules.bind (rules.array function value) rules.elements

theorem string (rules : Rules P) (function : String) (value : Value) :
    P _ (Call.string function value) := by
  cases value with
  | string text => exact rules.pure text
  | _ => exact rules.fail nofun

theorem argumentCount (rules : Rules P) (expected found : Nat) :
    P Value (throw (.argumentCount expected found)) :=
  rules.fail nofun

theorem callLen (rules : Rules P) (value : Value) : P _ (callLen value) := by
  cases value with
  | string text => exact rules.pure _
  | array ref => exact rules.bind (rules.elements ref) fun _ => rules.pure _
  | _ => exact rules.fail nofun

theorem callRest (rules : Rules P) (value : Value) : P _ (callRest value) := by
  refine rules.bind (rules.elementsOf "rest" value) fun elements => ?_
  split
  · exact rules.pure _
  · exact rules.newArray _

/-- Every call of a function that works on values alone has the property. -/
theorem call (rules : Rules P) {builtin : Builtin} (hbuiltin : builtin ∉ host)
    (args : List Value) :
    P _ (builtin.call evaluate (fun name _ => throw (.unbound name)) args) := by
  cases builtin with
  | len =>
      rcases args with _ | ⟨value, _ | _⟩
      exacts [rules.argumentCount _ _, rules.callLen value, rules.argumentCount _ _]
  | string =>
      rcases args with _ | ⟨value, _ | _⟩
      exacts [rules.argumentCount _ _, rules.bind (rules.text value) fun _ => rules.pure _,
        rules.argumentCount _ _]
  | first =>
      rcases args with _ | ⟨value, _ | _⟩
      exacts [rules.argumentCount _ _, rules.bind (rules.elementsOf "first" value)
        fun _ => rules.pure _, rules.argumentCount _ _]
  | last =>
      rcases args with _ | ⟨value, _ | _⟩
      exacts [rules.argumentCount _ _, rules.bind (rules.elementsOf "last" value)
        fun _ => rules.pure _, rules.argumentCount _ _]
  | rest =>
      rcases args with _ | ⟨value, _ | _⟩
      exacts [rules.argumentCount _ _, rules.callRest value, rules.argumentCount _ _]
  | push =>
      rcases args with _ | ⟨array, _ | ⟨value, _ | _⟩⟩
      exacts [rules.argumentCount _ _, rules.argumentCount _ _,
        rules.bind (rules.elementsOf "push" array) fun _ => rules.newArray _,
        rules.argumentCount _ _]
  | add =>
      rcases args with _ | ⟨array, _ | ⟨value, _ | _⟩⟩
      exacts [rules.argumentCount _ _, rules.argumentCount _ _,
        rules.bind (rules.array "add" array) fun ref => rules.append ref value,
        rules.argumentCount _ _]
  | foreign name => exact rules.fail nofun
  | _ => exact absurd (by decide) hbuiltin

end Rules

/-- Every call of a function that leaves the console alone has the property. -/
theorem FileRules.call (rules : FileRules P) {builtin : Builtin}
    (hbuiltin : builtin ∉ [put, get, clear]) (args : List Value) :
    P _ (builtin.call evaluate (fun name _ => throw (.unbound name)) args) := by
  by_cases hhost : builtin ∉ host
  · exact rules.toRules.call hhost args
  · cases builtin with
    | read =>
        rcases args with _ | ⟨path, _ | _⟩
        · exact rules.argumentCount _ _
        · refine rules.bind (rules.string "read" path) fun path => ?_
          exact rules.bind (rules.readFile path) fun _ => rules.pure _
        · exact rules.argumentCount _ _
    | write =>
        rcases args with _ | ⟨path, _ | ⟨value, _ | _⟩⟩
        · exact rules.argumentCount _ _
        · exact rules.argumentCount _ _
        · refine rules.bind (rules.string "write" path) fun path => ?_
          refine rules.bind (rules.text value) fun text => ?_
          exact rules.bind (rules.writeFile path text) fun _ => rules.pure _
        · exact rules.argumentCount _ _
    | put | get | clear => exact absurd (by decide) hbuiltin
    | foreign name => exact rules.fail nofun
    | _ => exact absurd (by decide) hhost

/-- What steps that print have, everything that a call prints has. -/
theorem OutputRules.printing (rules : OutputRules P) :
    Printing.Rules fun _ printing => P _ (Call.ofPrinting printing) where
  pure value := rules.pure value
  bind hfirst hnext := Call.ofPrinting_bind _ _ ▸ rules.bind hfirst hnext
  write := rules.write
  text value := Call.ofPrinting_ofEval (Eval.text value) ▸ rules.text value
  contents ref := Call.ofPrinting_ofEval (Eval.ofMemory (·.elements ref)) ▸ rules.elements ref
  levels := Call.ofPrinting_ofEval Eval.levels ▸ rules.levels
  endless := Call.ofPrinting_ofEval (failure : Eval Unit) ▸ rules.endless

/-- Every call of a function that does not read the input has the property. -/
theorem OutputRules.call (rules : OutputRules P) {builtin : Builtin} {args : List Value}
    (hget : ¬ (builtin = .get ∧ args = [])) :
    P _ (builtin.call evaluate (fun name _ => throw (.unbound name)) args) := by
  by_cases hbuiltin : builtin ∉ [put, get, clear]
  · exact rules.toFileRules.call hbuiltin args
  · cases builtin with
    | put =>
        refine rules.bind (rules.forIn fun arg _ => ?_) fun _ => rules.pure _
        exact rules.bind (rules.printing.valueLine arg) fun _ => rules.pure _
    | get =>
        cases args with
        | nil => exact absurd ⟨rfl, rfl⟩ hget
        | cons => exact rules.argumentCount _ _
    | clear =>
        cases args with
        | nil => exact rules.bind (rules.write _) fun _ => rules.pure _
        | cons => exact rules.argumentCount _ _
    | foreign name => exact rules.fail nofun
    | _ => exact absurd (by decide) hbuiltin

namespace HostRules

theorem callGet (rules : HostRules P) (hevaluate : ∀ p, P _ (Call.ofEval (evaluate p))) :
    P _ (callGet evaluate) := by
  refine rules.bind rules.readLine fun line => ?_
  cases line with
  | none => exact rules.pure _
  | some line =>
      by_cases haccept : (parse line).diagnostics.isEmpty
      · simp only [haccept, if_true]
        exact hevaluate _
      · simp only [haccept, Bool.false_eq_true, if_false]
        exact rules.bind (rules.printing.diagnostics _) fun _ => rules.pure _

/-- Every call has the property. -/
theorem call (rules : HostRules P) (hevaluate : ∀ p, P _ (Call.ofEval (evaluate p)))
    (builtin : Builtin) (args : List Value) :
    P _ (builtin.call evaluate (fun name _ => throw (.unbound name)) args) := by
  by_cases hget : builtin = .get ∧ args = []
  · obtain ⟨rfl, rfl⟩ := hget
    exact rules.callGet hevaluate
  · exact rules.toOutputRules.call hget

end HostRules

end

end Monkey.Builtin
