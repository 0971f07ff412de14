import Monkey.Proofs.Builtin.Rules
import Monkey.Proofs.Evaluation.Custody

/-! # Evaluation without host functions

Only the host functions reach the console and the files. Where no value of memory is one of them and
the registry names none, evaluation never gets hold of one: the console and the files stay as they
are, at every moment and at the end, and memory stays free of host functions (`kept_confinement`).
-/

namespace Monkey

/-- The value is no host function and carries none. -/
def Value.Clean : Value → Prop
  | .builtin b => b ∉ Builtin.host
  | .returned value => value.Clean
  | _ => True

/-- No name is bound to a host function and no array holds one. -/
abbrev Memory.Clean (memory : Memory) : Prop :=
  memory.Each Value.Clean Value.Clean

theorem Value.clean_iff {value : Value} (hvalue : value.kind ≠ .returned) :
    value.Clean ↔ ∀ b ∈ Builtin.host, value ≠ .builtin b := by
  cases value with
  | builtin b =>
      constructor
      · rintro hclean _ hhost ⟨⟩
        exact hclean hhost
      · exact fun hne hhost => hne b hhost rfl
  | returned => exact absurd rfl hvalue
  | _ => simp [Clean]

/-- Memory that control flow keeps out of holds no pending returns, so that there it is enough to
look at the values that are bound or are elements. -/
theorem Memory.WellFormed.clean_iff {memory : Memory} (hmemory : memory.WellFormed) :
    memory.Clean ↔ memory.Each (fun value => ∀ b ∈ Builtin.host, value ≠ .builtin b)
      fun value => ∀ b ∈ Builtin.host, value ≠ .builtin b := by
  have hbound {place : Nat} {frame : Frame} (hframe : memory.frames[place]? = some frame)
      {name : String} {value : Value} (hget : frame.bindings.get? name = some value) :
      value.kind ≠ .returned :=
    Value.kind_ne_returned_of_isAbrupt (hmemory.bound hframe hget)
  constructor
  · intro hclean
    refine ⟨fun hframe _ _ hget => ?_, fun harray _ hvalue => ?_⟩
    · exact (Value.clean_iff (hbound hframe hget)).mp (hclean.bound hframe hget)
    · exact (Value.clean_iff (hmemory.element harray hvalue)).mp (hclean.element harray hvalue)
  · intro heach
    refine ⟨fun hframe _ _ hget => ?_, fun harray _ hvalue => ?_⟩
    · exact (Value.clean_iff (hbound hframe hget)).mpr (heach.bound hframe hget)
    · exact (Value.clean_iff (hmemory.element harray hvalue)).mpr (heach.element harray hvalue)

/-- What lies outside of memory. -/
def World.outside (world : World) : Host.Console × Host.Directory :=
  (world.console, world.files)

/-! ## Calls that do not reach outside -/

section

variable {ε α β : Type} {computation : ExceptT ε Eval α}

/-- The computation leaves the console and the files alone. -/
def Secluded (computation : ExceptT ε Eval α) : Prop :=
  ∀ world result world', computation.run.run world = some (result, world') →
    world'.outside = world.outside

theorem secluded_pure (value : α) : Secluded (pure value : ExceptT ε Eval α) := by
  rintro world result world' ⟨⟩
  rfl

theorem secluded_throw (failure : ε) : Secluded (throw failure : ExceptT ε Eval α) := by
  rintro world result world' ⟨⟩
  rfl

theorem Secluded.bind {next : α → ExceptT ε Eval β} (hfirst : Secluded computation)
    (hnext : ∀ value, Secluded (next value)) : Secluded (computation >>= next) := by
  intro world result world' hrun
  rw [run_bind] at hrun
  rcases hmiddle : computation.run.run world with _ | ⟨failure | value, middle⟩
  · rw [hmiddle] at hrun
    cases hrun
  · rw [hmiddle] at hrun
    cases hrun
    exact hfirst _ _ _ hmiddle
  · rw [hmiddle] at hrun
    exact (hnext value _ _ _ hrun).trans (hfirst _ _ _ hmiddle)

theorem secluded_ofMemory (f : Memory → α) : Secluded (Call.ofEval (Eval.ofMemory f)) := by
  rintro world result world' ⟨⟩
  rfl

theorem secluded_updateMemory (f : Memory → α × Memory) :
    Secluded (Call.ofEval (Eval.updateMemory f)) := by
  rintro world result world' ⟨⟩
  rfl

theorem secluded_newArray (elements : Array Value) :
    Secluded (Call.ofEval (Eval.newArray elements)) := by
  rintro world result world' ⟨⟩
  rfl

theorem secluded_text (value : Value) : Secluded (Call.ofEval (Eval.text value)) := by
  intro world result world' hrun
  change (Except.ok <$> Eval.text value).run world = _ at hrun
  rw [StateT.run_map, run_text] at hrun
  cases htext : world.memory.text? value with
  | none => simp [htext] at hrun
  | some text =>
      rw [htext] at hrun
      cases hrun
      rfl

end

/-- All functions but the host functions leave the console and the files alone. -/
theorem secluded_rules : Builtin.Rules fun _ call => Secluded call where
  pure := secluded_pure
  fail _ := secluded_throw _
  bind := Secluded.bind
  elements _ := secluded_ofMemory _
  text := secluded_text
  newArray := secluded_newArray
  append _ _ := secluded_updateMemory _

/-! ## Values without host functions -/

/-- Evaluation with the standard functions keeps to itself, with the console and the files as
given. -/
def confinement (outside : Host.Console × Host.Directory) : Contract where
  requires session task world :=
    session.Closed ∧ session.registry = .standard ∧ world.outside = outside ∧
      world.memory.Clean ∧ ∀ value ∈ task.values, value.Clean
  ensures _ task _ result world' :=
    task.Proper result ∧ world'.outside = outside ∧ world'.memory.Clean ∧
      ∀ value ∈ result.values, value.Clean
  moment world values :=
    world.outside = outside ∧ world.memory.Clean ∧ ∀ value ∈ values, value.Clean

section

variable {session session' : Session} {task part : Task} {frame : Option FrameRef}
  {seen : List Value} {world world' : World} {result : Result} {value : Value}
  {outside : Host.Console × Host.Directory}

theorem Value.IsPlain.clean (hvalue : value.IsPlain) : value.Clean := by
  cases value with
  | builtin | returned => exact hvalue.elim
  | _ => trivial

/-- Evaluation with the standard functions holds no host function. -/
def Custody.clean : Custody where
  admits session := session.registry = .standard
  size _ := 0
  good _ value := value.Clean
  standard _ := rfl
  builtin hregistry hget := by
    rw [hregistry] at hget
    have hcore : ∀ b ∈ Builtin.core, b ∉ Builtin.host := by decide
    exact hcore _ (List.mem_of_find?_eq_some hget)
  mono hvalue _ := hvalue
  plain := Value.IsPlain.clean
  returned := Iff.rfl
  bind _ _ _ _ := rfl
  newFrame _ _ := rfl
  append _ _ _ := rfl
  newArray _ _ := ⟨Nat.le_refl _, trivial⟩
  newFunction _ _ := ⟨Nat.le_refl _, trivial⟩

/-- No level but that of a host function reaches outside. -/
theorem Task.Does.outside_eq (hdoes : task.Does session frame world seen result world')
    (hsession : session.Closed) (htask : ∀ value ∈ task.values, value.Clean) :
    world'.outside = world.outside := by
  cases hdoes with
  | @builtin builtin args value _ hrun =>
      have hbuiltin : builtin ∉ Builtin.host := htask (.builtin builtin) List.mem_cons_self
      rw [hsession, run_settle] at hrun
      obtain ⟨⟨reply, _⟩, hreply, hvalue⟩ := Option.map_eq_some_iff.mp hrun
      cases hvalue
      exact secluded_rules.call hbuiltin args _ _ _ hreply
  | _ => rfl

/-- Only `get` changes the session, and it is a host function. -/
theorem Task.Hands.confined
    (hhands : task.Hands session frame world seen session' part world') (hsession : session.Closed)
    (hregistry : session.registry = .standard) (hmemory : world.memory.Clean)
    (htask : ∀ value ∈ task.values, value.Clean) (hseen : ∀ value ∈ seen, value.Clean) :
    (confinement world.outside).requires session' part world' := by
  cases hhands with
  | part hpart =>
      exact ⟨hsession, hregistry, rfl, hmemory, fun value hvalue =>
        Custody.clean.good_of_from (hpart.from hvalue) hregistry hmemory hseen⟩
  | line hget =>
      have hhost : (Value.builtin .get).Clean := htask _ (by simp [hget, Task.values])
      exact absurd (by decide) hhost

theorem Plan.Local.confined {plan : Plan} {start : World}
    (hlocal : plan.Local session task frame seen world) (hsession : session.Closed)
    (hregistry : session.registry = .standard) (hworld : world.outside = outside)
    (hmemory : world.memory.Clean) (htask : ∀ value ∈ task.values, value.Clean)
    (hseen : ∀ value ∈ seen, value.Clean) :
    plan.Meets (confinement outside) ((confinement outside).ensures session task start) := by
  induction plan generalizing seen world with
  | done result world' =>
      have hdoes := hlocal.does
      have hworld' := (hdoes.outside_eq hsession htask).trans hworld
      have hclean := (Custody.clean.memory_of_does hdoes hsession hregistry hmemory htask hseen).2
      exact ⟨⟨hworld', hclean⟩, hdoes.proper, hworld', hclean⟩
  | stuck => trivial
  | pass _ next ih =>
      obtain ⟨-, rfl, place, name, value, -, hvalue, hnext⟩ := hlocal.of_pass
      refine ⟨⟨hworld, hmemory, nofun⟩, ih hnext hworld ?_ hseen⟩
      exact hmemory.bind place name (hseen value hvalue)
  | call session' part world' next ih =>
      obtain ⟨hhands, hcase⟩ := hlocal.of_call
      have hrequires := hhands.confined hsession hregistry hmemory htask hseen
      rw [hworld] at hrequires
      refine ⟨hrequires.2.2, hrequires, ?_⟩
      rintro result after ⟨hproper, hafter, hmemory', hvalues⟩
      rcases hcase with ⟨hrelays, rfl⟩ | ⟨-, -, hnext⟩
      · exact ⟨⟨hafter, hmemory', hvalues⟩, hrelays.proper hproper, hafter, hmemory', hvalues⟩
      · refine ih result after (hnext result after hproper) hafter hmemory' ?_
        exact List.forall_mem_append.mpr ⟨hvalues, hseen⟩

theorem Task.Enters.outside_eq (henters : task.Enters world frame world') :
    world'.outside = world.outside := by
  cases henters with
  | _ => rfl

end

/-- Evaluation with the standard functions in clean memory keeps to itself. -/
theorem kept_confinement (outside : Host.Console × Host.Directory) :
    (confinement outside).Kept := by
  rintro session task world ⟨hsession, hregistry, rfl, hmemory, hvalues⟩
  obtain ⟨frame, entered, henters, hlocal⟩ := session.plan_local task world
  exact hlocal.confined hsession hregistry henters.outside_eq
    (Custody.clean.memory_of_enters henters hmemory) hvalues fun value hvalue =>
      hvalues value (task.given_subset_values value hvalue)

end Monkey
