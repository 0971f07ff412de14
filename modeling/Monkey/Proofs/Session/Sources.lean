import Monkey.Proofs.Evaluation.Steps
import Monkey.Proofs.Session

/-! # Sources one after the other

What an evaluator of programs does with sources that it is fed one after the other: the outcome of
each, the steps that are taken and the moments on the way, also if the sources do not come to an end
(`Evaluator.Feeds`, `Evaluator.Visits`). A session is such an evaluator, and its answers to sources
one after the other, given enough fuel, are their outcomes (`Evaluator.Answers.exists_run_iff`).
-/

namespace Monkey

/-- What comes of a source: a value, or why the source is rejected. -/
abbrev Verdict (α : Type) := Except (List Diagnostic) α

/-- An evaluator of programs with states, steps and values: how a program comes to an end, and the
moments that it comes to. -/
structure Evaluator (State Step Value : Type) where
  ends : State → Program → List Step → Value → State → Prop
  comes : State → Program → List Step → State → Prop

namespace Evaluator

variable {State Step Value : Type}

/-- Sources are evaluated one after the other, with the given steps and outcomes. -/
inductive Feeds (evaluator : Evaluator State Step Value) :
    State → List String → List Step → List (Verdict Value) → State → Prop
  | nil {state} : Feeds evaluator state [] [] [] state
  | rejected {state text sources steps outcomes state'} (hreject : (parse text).diagnostics ≠ [])
    (hrest : Feeds evaluator state sources steps outcomes state') :
    Feeds evaluator state (text :: sources) steps (.error (parse text).diagnostics :: outcomes)
      state'
  | accepted {state text inner value middle sources outer outcomes state'}
    (haccept : (parse text).diagnostics = [])
    (hends : evaluator.ends state (parse text).program inner value middle)
    (hrest : Feeds evaluator middle sources outer outcomes state') :
    Feeds evaluator state (text :: sources) (inner ++ outer) (.ok value :: outcomes) state'

/-- The moments that the evaluation of sources comes to, and the steps that have been taken so
far. -/
inductive Visits (evaluator : Evaluator State Step Value) :
    State → List String → List Step → State → Prop
  | start {state sources} : Visits evaluator state sources [] state
  | rejected {state text sources steps state'} (hreject : (parse text).diagnostics ≠ [])
    (hrest : Visits evaluator state sources steps state') :
    Visits evaluator state (text :: sources) steps state'
  | inside {state text sources steps state'} (haccept : (parse text).diagnostics = [])
    (hcomes : evaluator.comes state (parse text).program steps state') :
    Visits evaluator state (text :: sources) steps state'
  | accepted {state text inner value middle sources outer state'}
    (haccept : (parse text).diagnostics = [])
    (hends : evaluator.ends state (parse text).program inner value middle)
    (hrest : Visits evaluator middle sources outer state') :
    Visits evaluator state (text :: sources) (inner ++ outer) state'

end Evaluator

/-! ## Answers -/

section

variable {σ α β : Type} {f : Nat → α → StateT σ Option β}

/-- More fuel keeps answers. -/
def KeptByFuel (f : Nat → α → StateT σ Option β) : Prop :=
  ∀ fuel fuel' item state reply, fuel ≤ fuel' → (f fuel item).run state = some reply →
    (f fuel' item).run state = some reply

theorem run_mapM_cons (g : α → StateT σ Option β) (item : α) (items : List α) (state : σ) :
    ((item :: items).mapM g).run state =
      ((g item).run state).bind fun reply =>
        ((items.mapM g).run reply.2).map fun rest => (reply.1 :: rest.1, rest.2) := by
  rw [List.mapM_cons, StateT.run_bind]
  refine Option.bind_congr fun reply _ => ?_
  rw [StateT.run_bind]
  cases (items.mapM g).run reply.2 with
  | none => rfl
  | some rest => rfl

theorem KeptByFuel.mapM (hkept : KeptByFuel f) :
    KeptByFuel fun fuel (items : List α) => items.mapM (f fuel) := by
  intro fuel fuel' items state reply hle hrun
  induction items generalizing state reply with
  | nil => exact hrun
  | cons item items ih =>
      rw [run_mapM_cons] at hrun ⊢
      obtain ⟨first, hfirst, hmap⟩ := Option.bind_eq_some_iff.mp hrun
      obtain ⟨rest, hrest, rfl⟩ := Option.map_eq_some_iff.mp hmap
      exact Option.bind_eq_some_iff.mpr ⟨first, hkept _ _ _ _ _ hle hfirst,
        Option.map_eq_some_iff.mpr ⟨rest, ih _ _ hrest, rfl⟩⟩

theorem KeptByFuel.exists_run_cons (hkept : KeptByFuel f) {item : α} {items : List α}
    {state state' : σ} {replies : List β} :
    (∃ fuel, ((item :: items).mapM (f fuel)).run state = some (replies, state')) ↔
      ∃ reply rest middle, replies = reply :: rest ∧
        (∃ fuel, (f fuel item).run state = some (reply, middle)) ∧
        ∃ fuel, (items.mapM (f fuel)).run middle = some (rest, state') := by
  constructor
  · rintro ⟨fuel, hrun⟩
    rw [run_mapM_cons] at hrun
    obtain ⟨⟨reply, middle⟩, hfirst, hmap⟩ := Option.bind_eq_some_iff.mp hrun
    obtain ⟨⟨rest, _⟩, hrest, heq⟩ := Option.map_eq_some_iff.mp hmap
    cases heq
    exact ⟨reply, rest, middle, rfl, ⟨fuel, hfirst⟩, fuel, hrest⟩
  · rintro ⟨reply, rest, middle, rfl, ⟨fuel, hfirst⟩, fuel', hrest⟩
    -- The first item and the others may need different amounts of fuel.
    refine ⟨max fuel fuel', ?_⟩
    rw [run_mapM_cons, hkept _ _ _ _ _ (Nat.le_max_left ..) hfirst, Option.bind_some,
      hkept.mapM _ _ _ _ _ (Nat.le_max_right ..) hrest]
    rfl

end

/-- A function with fuel answers to a source as the evaluator does. -/
structure Evaluator.Answers {State Step Value : Type} (evaluator : Evaluator State Step Value)
    (answer : Nat → String → StateT State Option (Verdict Value)) : Prop where
  kept : KeptByFuel answer
  rejected : ∀ {text : String}, (parse text).diagnostics ≠ [] → ∀ fuel state,
    (answer fuel text).run state = some (.error (parse text).diagnostics, state)
  accepted : ∀ {text : String}, (parse text).diagnostics = [] → ∀ state verdict state',
    (∃ fuel, (answer fuel text).run state = some (verdict, state')) ↔
      ∃ steps value, verdict = .ok value ∧
        evaluator.ends state (parse text).program steps value state'

/-- Then its answers to sources one after the other are their outcomes. -/
theorem Evaluator.Answers.exists_run_iff {State Step Value : Type}
    {evaluator : Evaluator State Step Value}
    {answer : Nat → String → StateT State Option (Verdict Value)}
    (hanswers : evaluator.Answers answer) {sources : List String} {state state' : State}
    {outcomes : List (Verdict Value)} :
    (∃ fuel, (sources.mapM (answer fuel)).run state = some (outcomes, state')) ↔
      ∃ steps, evaluator.Feeds state sources steps outcomes state' := by
  induction sources generalizing state outcomes with
  | nil =>
      constructor
      · rintro ⟨fuel, hrun⟩
        cases hrun
        exact ⟨[], .nil⟩
      · rintro ⟨_, _ | _⟩
        exact ⟨0, rfl⟩
  | cons text sources ih =>
      rw [hanswers.kept.exists_run_cons]
      by_cases haccept : (parse text).diagnostics = []
      · constructor
        · rintro ⟨verdict, rest, middle, rfl, hfirst, hrest⟩
          obtain ⟨inner, value, rfl, hends⟩ := (hanswers.accepted haccept _ _ _).mp hfirst
          obtain ⟨outer, hfeeds⟩ := ih.mp hrest
          exact ⟨_, .accepted haccept hends hfeeds⟩
        · rintro ⟨_, _ | ⟨hreject, -⟩ | ⟨-, hends, hfeeds⟩⟩
          · exact absurd haccept hreject
          · exact ⟨_, _, _, rfl, (hanswers.accepted haccept _ _ _).mpr ⟨_, _, rfl, hends⟩,
              ih.mpr ⟨_, hfeeds⟩⟩
      · constructor
        · rintro ⟨verdict, rest, middle, rfl, ⟨fuel, hfirst⟩, hrest⟩
          rw [hanswers.rejected haccept] at hfirst
          cases hfirst
          obtain ⟨steps, hfeeds⟩ := ih.mp hrest
          exact ⟨steps, .rejected haccept hfeeds⟩
        · rintro ⟨steps, _ | ⟨-, hfeeds⟩ | ⟨haccept', -, -⟩⟩
          · exact ⟨_, _, _, rfl, ⟨0, hanswers.rejected haccept 0 _⟩, ih.mpr ⟨_, hfeeds⟩⟩
          · exact absurd haccept' haccept

/-! ## Sessions -/

namespace Session

/-- A session evaluates programs in its top frame. -/
def evaluator (session : Session) : Evaluator World Step Value where
  ends world p steps value world' :=
    ∃ inner, ∃ htakes : (session.plan world (.program session.top p)).Takes inner (.one value)
        world',
      steps = inner ++
        [⟨session, .program session.top p, world, .one value, world', htakes.ends⟩]
  comes world p steps world' := (session.plan world (.program session.top p)).Comes steps world'

variable {session : Session} {world world' : World} {text : String}

theorem run_evalSource_of_rejected (hreject : (parse text).diagnostics ≠ []) (fuel : Nat) :
    (session.evalSource fuel text).run world =
      some (.error (parse text).diagnostics, world) := by
  have hempty : (parse text).diagnostics.isEmpty = false := List.isEmpty_eq_false_iff.mpr hreject
  unfold evalSource
  simp only [hempty, Bool.false_eq_true, if_false]
  rfl

theorem keptByFuel_evalSource (session : Session) :
    KeptByFuel fun fuel => session.evalSource fuel := by
  intro fuel fuel' text world reply hle hrun
  by_cases haccept : (parse text).diagnostics = []
  · rw [run_evalSource haccept] at hrun ⊢
    obtain ⟨⟨value, world'⟩, hprogram, rfl⟩ := Option.map_eq_some_iff.mp hrun
    have htask := Task.run_mono hle (run_program hprogram)
    rw [map_one_eq_some.mp htask]
    rfl
  · rw [run_evalSource_of_rejected haccept] at hrun ⊢
    exact hrun

theorem exists_run_evalSource_iff (haccept : (parse text).diagnostics = [])
    {verdict : Verdict Value} :
    (∃ fuel, (session.evalSource fuel text).run world = some (verdict, world')) ↔
      ∃ steps value, verdict = .ok value ∧
        session.evaluator.ends world (parse text).program steps value world' := by
  constructor
  · rintro ⟨fuel, hrun⟩
    rw [run_evalSource haccept] at hrun
    obtain ⟨⟨value, _⟩, hprogram, heq⟩ := Option.map_eq_some_iff.mp hrun
    cases heq
    obtain ⟨inner, htakes⟩ := (exists_run_evalProgram_iff.mp ⟨fuel, hprogram⟩).exists_takes
    exact ⟨_, value, rfl, inner, htakes, rfl⟩
  · rintro ⟨_, value, rfl, inner, htakes, -⟩
    obtain ⟨fuel, hprogram⟩ := exists_run_evalProgram_iff.mpr htakes.ends
    refine ⟨fuel, ?_⟩
    rw [run_evalSource haccept, hprogram]
    rfl

theorem answers_evalSource (session : Session) :
    session.evaluator.Answers fun fuel => session.evalSource fuel where
  kept := keptByFuel_evalSource session
  rejected hreject fuel _ := run_evalSource_of_rejected hreject fuel
  accepted haccept _ _ _ := exists_run_evalSource_iff haccept

end Session

end Monkey
