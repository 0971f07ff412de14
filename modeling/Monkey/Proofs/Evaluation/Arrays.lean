import Monkey.Proofs.Evaluation.Known

/-! # The changes of arrays

An array changes when it is created and when `add` puts an element at its end, and in no other way.
The steps of a run say when that has happened, and to play the changes back from the arrays at the
beginning of a run gives the arrays at its end (`Plan.Takes.replays`) and at every moment on the way
(`Plan.Comes.replays`).
-/

namespace Monkey

/-- What happens to an array: it is created with some elements, or an element is added to it. -/
inductive Change
  | created (ref : ArrayRef) (elements : Array Value)
  | added (ref : ArrayRef) (value : Value)

/-- The arrays that are created, in order. -/
def creations (changes : List Change) : List ArrayRef :=
  changes.filterMap fun
    | .created ref _ => some ref
    | .added .. => none

/-- The elements that are added to an array, in order. -/
def additions (ref : ArrayRef) (changes : List Change) : List Value :=
  changes.filterMap fun
    | .created .. => none
    | .added ref' value => if ref' = ref then some value else none

theorem additions_added_cons (ref ref' : ArrayRef) (value : Value) (changes : List Change) :
    additions ref (.added ref' value :: changes) =
      if ref' = ref then value :: additions ref changes else additions ref changes := by
  rw [additions, List.filterMap_cons]
  by_cases hsame : ref' = ref
  · simp only [hsame, if_true]
    rfl
  · simp only [hsame, if_false]
    rfl

/-- The changes lead from some arrays to others. A new array comes after all that exist, and
elements are added to existing arrays only. -/
inductive Replays : Array (Array Value) → List Change → Array (Array Value) → Prop
  | nil {arrays} : Replays arrays [] arrays
  | created {arrays elements changes arrays'}
    (hrest : Replays (arrays.push elements) changes arrays') :
    Replays arrays (.created ⟨arrays.size⟩ elements :: changes) arrays'
  | added {arrays ref value changes arrays'} (hlt : ref.index < arrays.size)
    (hrest : Replays (arrays.modify ref.index (·.push value)) changes arrays') :
    Replays arrays (.added ref value :: changes) arrays'

namespace Replays

variable {arrays middle arrays' : Array (Array Value)} {changes earlier later : List Change}
  {ref : ArrayRef}

theorem append (hfirst : Replays arrays earlier middle) (hsecond : Replays middle later arrays') :
    Replays arrays (earlier ++ later) arrays' := by
  induction hfirst with
  | nil => exact hsecond
  | created _ ih => exact .created (ih hsecond)
  | added hlt _ ih => exact .added hlt (ih hsecond)

theorem of_append (hreplays : Replays arrays (earlier ++ later) arrays') :
    ∃ middle, Replays arrays earlier middle ∧ Replays middle later arrays' := by
  induction earlier generalizing arrays with
  | nil => exact ⟨arrays, .nil, hreplays⟩
  | cons change rest ih =>
      cases hreplays with
      | created hrest =>
          obtain ⟨middle, hfirst, hsecond⟩ := ih hrest
          exact ⟨middle, .created hfirst, hsecond⟩
      | added hlt hrest =>
          obtain ⟨middle, hfirst, hsecond⟩ := ih hrest
          exact ⟨middle, .added hlt hfirst, hsecond⟩

theorem size_le (hreplays : Replays arrays changes arrays') : arrays.size ≤ arrays'.size := by
  induction hreplays with
  | nil => exact Nat.le_refl _
  | created _ ih =>
      rw [Array.size_push] at ih
      exact Nat.le_of_succ_le ih
  | added _ _ ih =>
      rw [Array.size_modify] at ih
      exact ih

/-- Arrays are created one after the other, each once. -/
theorem creations_eq (hreplays : Replays arrays changes arrays') :
    (List.range arrays.size).map ArrayRef.mk ++ creations changes =
      (List.range arrays'.size).map ArrayRef.mk := by
  induction hreplays with
  | nil => exact List.append_nil _
  | created _ ih =>
      rw [← ih, Array.size_push, List.range_succ, List.map_append, List.append_assoc]
      rfl
  | added _ _ ih =>
      rw [← ih, Array.size_modify]
      rfl

/-- Nothing is added to an array that does not exist. -/
theorem additions_eq_nil (hreplays : Replays arrays changes arrays')
    (href : arrays'.size ≤ ref.index) : additions ref changes = [] := by
  induction hreplays with
  | nil => rfl
  | created _ ih => exact ih href
  | @added arrays ref' value _ _ hlt hrest ih =>
      have hsize := hrest.size_le
      rw [Array.size_modify] at hsize
      have hne : ref' ≠ ref := by
        rintro rfl
        omega
      rw [additions_added_cons, if_neg hne]
      exact ih href

/-- An array has the elements that it had before and those added to it since. -/
theorem getElem?_eq (hreplays : Replays arrays changes arrays') {elements : Array Value}
    (harray : arrays[ref.index]? = some elements) :
    arrays'[ref.index]? = some (elements ++ (additions ref changes).toArray) := by
  induction hreplays generalizing elements with
  | nil => simpa [additions] using harray
  | @created arrays new _ _ _ ih =>
      apply ih
      have hlt := (Array.getElem?_eq_some_iff.mp harray).1
      rw [Array.getElem?_push, if_neg (Nat.ne_of_lt hlt), harray]
  | @added arrays ref' value _ _ _ _ ih =>
      by_cases hsame : ref' = ref
      · subst hsame
        have hpushed : (arrays.modify ref'.index (·.push value))[ref'.index]? =
            some (elements.push value) := by
          rw [Array.getElem?_modify, if_pos rfl, harray]
          rfl
        rw [ih hpushed, additions_added_cons, if_pos rfl]
        simp
      · have hkept : (arrays.modify ref'.index (·.push value))[ref.index]? = some elements := by
          have hne : ref'.index ≠ ref.index := fun h => hsame (congrArg ArrayRef.mk h)
          rw [Array.getElem?_modify, if_neg hne, harray]
        rw [ih hkept, additions_added_cons, if_neg hsame]

/-- The contents of an array are what it was created with and what has been added to it, all of it
later. -/
theorem contents (hreplays : Replays #[] changes arrays') {elements : Array Value}
    (hchanges : changes = earlier ++ .created ref elements :: later) :
    additions ref earlier = [] ∧
      arrays'[ref.index]? = some (elements ++ (additions ref later).toArray) := by
  subst hchanges
  obtain ⟨middle, hearlier, hrest⟩ := hreplays.of_append
  cases hrest with
  | created hlater =>
      exact ⟨hearlier.additions_eq_nil (Nat.le_refl _), hlater.getElem?_eq Array.getElem?_push_size⟩

end Replays

namespace Task

/-- The element that a call of `add` adds. -/
def addition : Task → List Change
  | .apply (.builtin .add) [.array ref, value] => [.added ref value]
  | _ => []

/-- How a task that has come to an end has changed arrays by itself, given memory after it. -/
def changes (task : Task) (after : Memory) : Result → List Change
  | .one (.array ref) => if task.builds then [.created ref (after.elements ref)] else []
  | .one .null => task.addition
  | _ => []

end Task

/-- How a step has changed arrays by itself. What remains of a loop leaves it to the loop. -/
def Step.changes (step : Step) : List Change :=
  if step.task.isRounds then [] else step.task.changes step.after.memory step.result

/-- How steps have changed arrays. -/
def changesOf (steps : List Step) : List Change :=
  steps.flatMap Step.changes

section

variable {session session' : Session} {task part : Task} {frame : Option FrameRef}
  {seen : List Value} {memory memory' : Memory} {world world' : World} {result : Result}
  {steps inner outer : List Step} {allowed : Builtin → Prop}

theorem changesOf_append (steps steps' : List Step) :
    changesOf (steps ++ steps') = changesOf steps ++ changesOf steps' :=
  List.flatMap_append

theorem changesOf_cons (step : Step) (steps : List Step) :
    changesOf (step :: steps) = step.changes ++ changesOf steps :=
  List.flatMap_cons

theorem Task.addition_eq_nil (hadd : ∀ args, task ≠ .apply (.builtin .add) args) :
    task.addition = [] := by
  unfold Task.addition
  split
  · exact absurd rfl (hadd _)
  · rfl

theorem Task.changes_eq_nil
    (hbuilds : task.builds = true → ∀ ref, result ≠ .one (.array ref))
    (hadd : ∀ args, task ≠ .apply (.builtin .add) args) (after : Memory) :
    task.changes after result = [] := by
  unfold Task.changes
  split
  next ref =>
    split
    next htask => exact absurd rfl (hbuilds htask ref)
    next => rfl
  next => exact Task.addition_eq_nil hadd
  next => rfl

theorem Task.changes_of_isLoop (htask : task.isLoop = true) (hpart : part.isLoop = true)
    (after : Memory) : task.changes after result = part.changes after result := by
  have hbuilds {task : Task} (hloop : task.isLoop = true) :
      task.builds = true ∧ task.addition = [] := by
    unfold Task.isLoop at hloop
    split at hloop
    · exact ⟨rfl, rfl⟩
    · exact ⟨rfl, rfl⟩
    · cases hloop
  unfold Task.changes
  rw [(hbuilds htask).1, (hbuilds htask).2, (hbuilds hpart).1, (hbuilds hpart).2]

theorem Task.isLoop_of_isRounds (htask : task.isRounds = true) : task.isLoop = true := by
  cases task with
  | loop => rfl
  | _ => cases htask

theorem Task.Relays.changes_eq_nil (hrelays : task.Relays part) (hpart : part.isRounds = false)
    (after : Memory) : task.changes after result = [] := by
  refine Task.changes_eq_nil (fun hbuilds => ?_) ?_ after
  · exact absurd hbuilds (ne_true_of_eq_false (hrelays.builds hpart))
  · cases hrelays with
    | _ => exact nofun

/-- What the rounds of a loop change counts as changed by the loop. -/
theorem Step.changes_append_of_relays (step : Step) (hrelays : task.Relays step.task) :
    step.changes ++ task.changes step.after.memory step.result =
      step.task.changes step.after.memory step.result := by
  cases hrounds : step.task.isRounds with
  | false => simp [Step.changes, hrounds, hrelays.changes_eq_nil hrounds]
  | true =>
      rw [Task.changes_of_isLoop (hrelays.isLoop hrounds) (Task.isLoop_of_isRounds hrounds)]
      simp [Step.changes, hrounds]

theorem Task.replays_newArray {elements : Array Value} (hbuilds : task.builds = true) :
    Replays memory.arrays
      (task.changes (memory.newArray elements).2 (.one (.array (memory.newArray elements).1)))
      (memory.newArray elements).2.arrays := by
  rw [Task.changes, hbuilds, if_pos rfl, Memory.elements_newArray]
  exact .created .nil

theorem Builtin.Effect.replays {builtin : Builtin} {args : List Value} {value : Value}
    (heffect : Builtin.Effect memory builtin args value memory')
    (hargs : ∀ arg ∈ args, arg.Known allowed memory.arrays.size) :
    Replays memory.arrays ((Task.apply (.builtin builtin) args).changes memory' (.one value))
      memory'.arrays := by
  cases heffect with
  | plain hvalue hadd =>
      have hnone : (Task.apply (.builtin builtin) args).changes memory (.one value) = [] := by
        by_cases hbuiltin : builtin = .add
        · cases value with
          | error message => rfl
          | _ => cases hadd hbuiltin
        · refine Task.changes_eq_nil (fun _ ref href => ?_) (fun args' htask => ?_) memory
          · cases href
            exact hvalue
          · cases htask
            exact hbuiltin rfl
      rw [hnone]
      exact .nil
  | @element _ ref _ hbuiltin =>
      have hnone : (Task.apply (.builtin builtin) [.array ref]).changes memory (.one value) =
          [] := by
        simp only [List.mem_cons, List.not_mem_nil, or_false] at hbuiltin
        rcases hbuiltin with rfl | rfl
        · cases value with
          | _ => rfl
        · cases value with
          | _ => rfl
      rw [hnone]
      exact .nil
  | rest => exact Task.replays_newArray rfl
  | push => exact Task.replays_newArray rfl
  | @add ref value =>
      have href : ref.index < memory.arrays.size := hargs (.array ref) (by simp)
      exact .added href .nil

theorem Task.Does.replays (hdoes : task.Does session frame world seen result world')
    (hsession : session.Closed)
    (hvalues : ∀ value ∈ task.values, value.Known allowed world.memory.arrays.size) :
    Replays world.memory.arrays (task.changes world'.memory result) world'.memory.arrays := by
  cases hdoes with
  | @deliver _ value htask _ _ hbuilds =>
      have hnone : task.changes world.memory (.one value) = [] := by
        refine Task.changes_eq_nil (fun htask ref href => ?_) (htask .add) world.memory
        cases href
        cases hbuilds htask
      rw [hnone]
      exact .nil
  | array _ hbuilds => exact Task.replays_newArray hbuilds
  | builtin hrun =>
      exact (hsession.effect hrun).replays fun arg harg =>
        hvalues arg (List.mem_cons_of_mem _ harg)
  | _ => exact .nil

/-- The changes in a run lead from the arrays at its beginning to those at its end. -/
theorem Plan.Takes.replays {plan : Plan} {goal : Result → World → Prop}
    (htakes : plan.Takes steps result world')
    (hlocal : plan.Local session task frame seen world) (hsession : session.Closed)
    (hmeets : plan.Meets (knowledge allowed) goal)
    (hvalues : ∀ value ∈ task.values, value.Known allowed world.memory.arrays.size) :
    Replays world.memory.arrays (changesOf steps ++ task.changes world'.memory result)
      world'.memory.arrays := by
  induction htakes generalizing session task frame seen world goal with
  | done => exact hlocal.does.replays hsession hvalues
  | pass _ ih =>
      obtain ⟨-, -, place, name, value, -, -, hnext⟩ := hlocal.of_pass
      have hreplays := ih hnext hsession hmeets.2 hvalues
      exact hreplays
  | @call session' part start next inner result world' outer _ _ hends _ hnext ihtask ihnext =>
      obtain ⟨hhands, hcase⟩ := hlocal.of_call
      have hstart := hhands.memory_eq
      obtain ⟨-, hrequires, hmeetsNext⟩ := hmeets
      obtain ⟨place, entered, henters, hlocalPart⟩ := session'.plan_local part start
      have hensures := (kept_knowledge allowed).ensures_of_ends hrequires hends
      have hpart : Replays world.memory.arrays
          (changesOf inner ++ part.changes world'.memory result) world'.memory.arrays := by
        have hknown := hrequires.2.2.2
        rw [← hstart, ← henters.arrays]
        rw [← henters.arrays] at hknown
        exact ihtask hlocalPart hrequires.1 (kept_knowledge allowed _ _ _ hrequires) hknown
      rw [changesOf_append, changesOf_cons]
      rcases hcase with ⟨hrelays, rfl⟩ | ⟨-, hrounds, hafter⟩
      · cases hnext
        rw [← Step.changes_append_of_relays ⟨session', part, start, result, world', hends⟩ hrelays,
          ← List.append_assoc] at hpart
        simpa [changesOf] using hpart
      · have hrest := ihnext (hafter result world' hensures.1) hsession (hmeetsNext _ _ hensures)
          fun value hvalue => (hvalues value hvalue).mono (hstart ▸ hensures.2.1)
        simpa [Step.changes, hrounds] using hpart.append hrest

theorem Task.replays_of_takes (hrequires : (knowledge allowed).requires session task world)
    (htakes : (session.plan world task).Takes steps result world') :
    Replays world.memory.arrays (changesOf steps ++ task.changes world'.memory result)
      world'.memory.arrays := by
  obtain ⟨frame, entered, henters, hlocal⟩ := session.plan_local task world
  have hknown := hrequires.2.2.2
  rw [← henters.arrays] at hknown ⊢
  exact htakes.replays hlocal hrequires.1 (kept_knowledge allowed _ _ _ hrequires) hknown

/-- The changes so far lead from the arrays at the beginning of a run to those of the moment. -/
theorem Plan.Comes.replays {plan : Plan} {goal : Result → World → Prop}
    (hcomes : plan.Comes steps world') (hlocal : plan.Local session task frame seen world)
    (hmeets : plan.Meets (knowledge allowed) goal) :
    Replays world.memory.arrays (changesOf steps) world'.memory.arrays := by
  induction hcomes generalizing session task frame seen world goal with
  | pass =>
      obtain ⟨-, rfl, -⟩ := hlocal.of_pass
      exact .nil
  | next _ ih =>
      obtain ⟨-, -, place, name, value, -, -, hnext⟩ := hlocal.of_pass
      have hreplays := ih hnext hmeets.2
      exact hreplays
  | call =>
      rw [hlocal.of_call.1.memory_eq]
      exact .nil
  | @inside session' part start _ _ _ _ ih =>
      obtain ⟨-, hrequires, -⟩ := hmeets
      obtain ⟨place, entered, henters, hlocalPart⟩ := session'.plan_local part start
      rw [← hlocal.of_call.1.memory_eq, ← henters.arrays]
      exact ih hlocalPart (kept_knowledge allowed _ _ _ hrequires)
  | ended _ hrounds htakes =>
      rw [← hlocal.of_call.1.memory_eq, changesOf_append, changesOf_cons]
      simpa [Step.changes, hrounds, changesOf] using Task.replays_of_takes hmeets.2.1 htakes
  | @after session' part start next inner result world' outer _ hends htakes hcomes ih =>
      obtain ⟨-, hrequires, hmeetsNext⟩ := hmeets
      have hensures := (kept_knowledge allowed).ensures_of_ends hrequires hends
      rw [← hlocal.of_call.1.memory_eq, changesOf_append, changesOf_cons]
      rcases hlocal.of_call.2 with ⟨-, rfl⟩ | ⟨-, hrounds, hafter⟩
      · cases hcomes
      · have hpart := Task.replays_of_takes hrequires htakes
        have hrest := ih (hafter result world' hensures.1) (hmeetsNext _ _ hensures)
        simpa [Step.changes, hrounds] using hpart.append hrest

/-! ## Array literals and loops -/

theorem Task.Does.builds (hdoes : task.Does session frame world seen result world')
    (htask : task.Composite) (hbuilds : task.builds = true) :
    ∃ value, result = .one value ∧ (value.isAbrupt = true ∨ ∃ ref, value = .array ref) := by
  cases hdoes with
  | deliver _ _ _ habrupt => exact ⟨_, rfl, .inl (habrupt hbuilds)⟩
  | array => exact ⟨_, rfl, .inr ⟨_, rfl⟩⟩
  | builtin => exact absurd rfl (htask _ _)
  | _ => cases hbuilds

/-- An array literal or a loop that is not cut short delivers an array. -/
theorem Plan.Ends.builds {plan : Plan} (hends : plan.Ends result world')
    (hlocal : plan.Local session task frame seen world) (htask : task.Composite)
    (hbuilds : task.builds = true) :
    ∃ value, result = .one value ∧ (value.isAbrupt = true ∨ ∃ ref, value = .array ref) := by
  induction hends generalizing session task frame seen world with
  | done => exact hlocal.does.builds htask hbuilds
  | pass _ ih =>
      obtain ⟨-, -, place, name, value, -, -, hnext⟩ := hlocal.of_pass
      exact ih hnext htask hbuilds
  | @call session' part start _ result world' _ _ hpart hnext ihpart ihnext =>
      obtain ⟨-, ⟨hrelays, rfl⟩ | ⟨-, -, hafter⟩⟩ := hlocal.of_call
      · -- Only what remains of a loop delivers its result for another task that builds.
        cases hnext
        cases hrounds : part.isRounds with
        | false => cases hbuilds.symm.trans (hrelays.builds hrounds)
        | true =>
            cases part with
            | loop =>
                obtain ⟨place, entered, -, hlocalPart⟩ := session'.plan_local (.loop ..) start
                exact ihpart hlocalPart nofun rfl
            | _ => cases hrounds
      · exact ihnext (hafter result world' (Task.proper_of_ends hpart)) htask hbuilds

end

end Monkey
