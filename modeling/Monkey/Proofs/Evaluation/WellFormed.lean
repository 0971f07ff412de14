import Monkey.Proofs.Evaluation.Levels

/-! # Evaluation keeps memory well-formed

If the values that a task comes with are not abrupt, then evaluating it keeps memory well-formed and
a pending return that it delivers carries a value that is not abrupt. A call and a program deliver
no pending return at all.
-/

namespace Monkey

namespace Task

/-- Errors and pending returns are not among the collected values of a loop, the arguments of a call
and the values of statements that have been evaluated. -/
def Ordinary : Task → Prop
  | .loop _ _ _ collected => ∀ value ∈ collected, value.isAbrupt = false
  | .block _ _ value => value.isAbrupt = false
  | .apply _ args => ∀ arg ∈ args, arg.isAbrupt = false
  | _ => True

theorem ordinary_iff {task : Task} :
    task.Ordinary ↔ ∀ value ∈ task.given, value.isAbrupt = false := by
  cases task with
  | loop => simp [Ordinary, given]
  | block => simp [Ordinary, given]
  | apply => exact Iff.rfl
  | _ => exact iff_of_true trivial (List.forall_mem_nil _)

/-- What the results of a task look like. -/
def Delivers : Task → Result → Prop
  | .exprs .., .many values => ∀ value ∈ values, value.isAbrupt = false
  | .exprs .., .one value => value.isAbrupt = true ∧ value.Unnested
  | .apply .., .one value => value.kind ≠ .returned
  | .program .., .one value => value.kind ≠ .returned
  | _, .one value => value.Unnested
  | _, .many _ => False

theorem Delivers.unnested {task : Task} {value : Value} (hvalue : task.Delivers (.one value)) :
    value.Unnested := by
  cases task with
  | exprs => exact hvalue.2
  | apply => exact Value.unnested_of_kind hvalue
  | program => exact Value.unnested_of_kind hvalue
  | _ => exact hvalue

end Task

/-- Evaluation keeps control flow out of memory. -/
def discipline : Contract where
  requires session task world := session.Closed ∧ task.Ordinary ∧ world.memory.WellFormed
  ensures _ task _ result world := task.Delivers result ∧ world.memory.WellFormed
  moment world values := world.memory.WellFormed ∧ ∀ value ∈ values, value.Unnested

section

variable {session session' : Session} {task part : Task} {frame : Option FrameRef}
  {seen args : List Value} {memory : Memory} {world world' : World} {result : Result}
  {value : Value}

theorem Value.From.kind (hfrom : value.From session frame memory seen)
    (hmemory : memory.WellFormed) (hseen : ∀ value ∈ seen, value.isAbrupt = false) :
    value.kind ≠ .returned := by
  cases hfrom with
  | seen hvalue => exact Value.kind_ne_returned_of_isAbrupt (hseen _ hvalue)
  | plain hvalue => exact hvalue.kind_ne_returned
  | builtin => exact Value.Kind.noConfusion
  | bound _ hlookup =>
      exact Value.kind_ne_returned_of_isAbrupt (hmemory.isAbrupt_of_lookupWithin hlookup)
  | element _ hvalue => exact hmemory.kind_of_mem_elements hvalue
  | carried hreturned => cases hseen _ hreturned

/-- What is handed on with a part is not abrupt. -/
theorem Task.Part.isAbrupt (hpart : task.Part frame world seen part)
    (hseen : ∀ value ∈ seen, value.isAbrupt = false) :
    ∀ value ∈ part.values, value.isAbrupt = false := by
  intro value hvalue
  rcases hpart.values value hvalue with hmem | rfl
  · exact hseen value hmem
  · rfl

theorem Task.Hands.disciplined
    (hhands : task.Hands session frame world seen session' part world')
    (hsession : session.Closed) (hmemory : world.memory.WellFormed)
    (hseen : ∀ value ∈ seen, value.isAbrupt = false) :
    discipline.moment world' part.values ∧ discipline.requires session' part world' := by
  have hmemory' : world'.memory.WellFormed := hhands.memory_eq ▸ hmemory
  cases hhands with
  | part hpart =>
      have hvalues := hpart.isAbrupt hseen
      exact ⟨⟨hmemory', fun value hvalue => Value.unnested_of_isAbrupt (hvalues value hvalue)⟩,
        hsession, Task.ordinary_iff.mpr fun value hvalue =>
          hvalues value (part.given_subset_values value hvalue), hmemory'⟩
  | line => exact ⟨⟨hmemory', nofun⟩, hsession.standard, trivial, hmemory'⟩

theorem Task.delivers_of_kind (hproper : task.Proper (.one value))
    (hvalue : value.kind ≠ .returned) : task.Delivers (.one value) := by
  have hunnested := Value.unnested_of_kind hvalue
  cases task with
  | exprs => exact ⟨hproper, hunnested⟩
  | apply | program => exact hvalue
  | _ => exact hunnested

theorem Task.Delivers.forall_unnested (hresult : task.Delivers result) :
    ∀ value ∈ result.values, value.Unnested := by
  cases result with
  | one value => exact hresult.unnested.singleton
  | many values =>
      cases task with
      | exprs => exact fun value hvalue => Value.unnested_of_isAbrupt (hresult value hvalue)
      | _ => exact hresult.elim

theorem Task.Delivers.proper (hresult : task.Delivers result) : task.Proper result := by
  cases result with
  | one value =>
      cases task with
      | exprs => exact hresult.1
      | _ => trivial
  | many values =>
      cases task with
      | exprs => trivial
      | _ => exact hresult

theorem Task.Delivers.forall_isAbrupt (hresult : task.Delivers result)
    (hplain : result.isAbrupt = false) : ∀ value ∈ result.values, value.isAbrupt = false := by
  cases result with
  | one value =>
      intro element helement
      cases List.mem_singleton.mp helement
      exact hplain
  | many values =>
      cases task with
      | exprs => exact hresult
      | _ => exact hresult.elim

/-- A task that relays a part delivers what the part may deliver. -/
theorem Task.Relays.delivers (hrelays : task.Relays part) (hresult : part.Delivers result) :
    task.Delivers result := by
  cases result with
  | many values =>
      cases hrelays with
      | _ => exact hresult.elim
  | one value =>
      cases hrelays with
      | line => exact hresult
      | _ => exact hresult.unnested

theorem Session.Closed.step {builtin : Builtin} (hsession : session.Closed)
    (hargs : ∀ arg ∈ args, arg.isAbrupt = false) (hmemory : world.memory.WellFormed)
    (hrun : (Eval.settle (builtin.call (fun _ => failure) session.foreign args)).run world =
      some (value, world')) :
    value.kind ≠ .returned ∧ world'.memory.WellFormed := by
  have htame : Builtin.Tame (builtin.call (fun _ => failure) session.foreign args) := by
    apply Builtin.tame_call _ _ builtin hargs
    · intro p world result world' _ hnone
      cases hnone
    · intro name args
      rw [hsession]
      exact keeps_throw _
  rw [run_settle] at hrun
  obtain ⟨reply, hreply, hvalue⟩ := Option.map_eq_some_iff.mp hrun
  cases hvalue
  obtain ⟨hmemory', hkind⟩ := htame world reply.1 reply.2 hmemory hreply
  exact ⟨Value.ofExcept_kind_ne_returned hkind, hmemory'⟩

theorem Task.Does.disciplined (hdoes : task.Does session frame world seen result world')
    (hsession : session.Closed) (htask : task.Ordinary) (hmemory : world.memory.WellFormed)
    (hseen : ∀ value ∈ seen, value.isAbrupt = false) :
    task.Delivers result ∧ world'.memory.WellFormed := by
  cases hdoes with
  | deliver _ hvalue hproper =>
      exact ⟨Task.delivers_of_kind hproper (hvalue.kind hmemory hseen), hmemory⟩
  | many hvalues => exact ⟨fun value hvalue => hseen value (hvalues value hvalue), hmemory⟩
  | ret hvalue =>
      refine ⟨?_, hmemory⟩
      rintro carried ⟨⟩
      exact hseen _ hvalue
  | array _ hbuilds hvalues =>
      refine ⟨Task.delivers_of_kind (Task.proper_of_builds hbuilds _) Value.Kind.noConfusion,
        hmemory.newArray fun value hvalue => ?_⟩
      exact Value.kind_ne_returned_of_isAbrupt (hseen value (hvalues value hvalue))
  | function => exact ⟨Value.unnested_of_isAbrupt rfl, hmemory.newFunction _⟩
  | bind hvalue => exact ⟨Value.unnested_of_isAbrupt rfl, hmemory.bind _ _ (hseen _ hvalue)⟩
  | builtin hrun => exact hsession.step htask hmemory hrun

theorem meets_done (hmemory : world.memory.WellFormed) (hresult : task.Delivers result)
    (start : World) :
    (Plan.done result world).Meets discipline (discipline.ensures session task start) :=
  ⟨⟨hmemory, hresult.forall_unnested⟩, hresult, hmemory⟩

theorem meets_onAbrupt (hmemory : world.memory.WellFormed) (habrupt : value.isAbrupt = true)
    (hvalue : value.Unnested) (start : World) :
    (task.onAbrupt part value world).Meets discipline (discipline.ensures session task start) := by
  unfold Task.onAbrupt
  split
  · refine meets_done (hmemory.newArray fun element helement => ?_) ?_ start
    · cases Array.mem_singleton.mp helement
      exact Value.Kind.noConfusion
    · exact Value.unnested_of_kind Value.Kind.noConfusion
  · refine meets_done hmemory ?_ start
    exact hvalue.unwrapReturn
  · refine meets_done hmemory ?_ start
    exact hvalue.unwrapReturn
  next hcall hprogram _ =>
    refine meets_done hmemory ?_ start
    cases task with
    | exprs => exact ⟨habrupt, hvalue⟩
    | apply => exact absurd rfl (hcall _ _)
    | program => exact absurd rfl (hprogram _ _)
    | _ => exact hvalue

/-- As long as nothing abrupt has been seen, a level keeps control flow out of memory, and when a
part delivers something abrupt, the level is over. -/
theorem Plan.Local.disciplined {plan : Plan}
    (hlocal : plan.Local session task frame seen world) (hsession : session.Closed)
    (htask : task.Ordinary) (hmemory : world.memory.WellFormed)
    (hseen : ∀ value ∈ seen, value.isAbrupt = false) (start : World) :
    plan.Meets discipline (discipline.ensures session task start) := by
  induction hlocal with
  | done hdoes =>
      obtain ⟨hresult, hmemory'⟩ := hdoes.disciplined hsession htask hmemory hseen
      exact meets_done hmemory' hresult start
  | stuck => trivial
  | pass _ _ hvalue _ ih =>
      exact ⟨⟨hmemory, nofun⟩, ih (hmemory.bind _ _ (hseen _ hvalue)) hseen⟩
  | @call seen world part next hpart _ habrupt _ ih =>
      have hhands : task.Hands session frame world seen session part world := .part hpart
      obtain ⟨hmoment, hrequires⟩ := hhands.disciplined hsession hmemory hseen
      refine ⟨hmoment, hrequires, ?_⟩
      rintro result world' ⟨hresult, hmemory'⟩
      by_cases hplain : result.isAbrupt = true
      · cases result with
        | many => cases hplain
        | one value =>
            rw [habrupt value world' hplain]
            exact meets_onAbrupt hmemory' hplain hresult.unnested start
      · have hordinary := Bool.eq_false_iff.mpr hplain
        refine ih result world' hresult.proper hordinary hmemory' ?_
        exact List.forall_mem_append.mpr ⟨hresult.forall_isAbrupt hordinary, hseen⟩
  | relay hrelays hhands =>
      obtain ⟨hmoment, hrequires⟩ := hhands.disciplined hsession hmemory hseen
      refine ⟨hmoment, hrequires, ?_⟩
      rintro result world' ⟨hresult, hmemory'⟩
      exact meets_done hmemory' (hrelays.delivers hresult) start

end

theorem Task.Enters.wellFormed {task : Task} {frame : Option FrameRef} {world world' : World}
    (henters : task.Enters world frame world') (hmemory : world.memory.WellFormed) :
    world'.memory.WellFormed := by
  cases henters with
  | stay => exact hmemory
  | call => exact hmemory.newFrame _

/-- The evaluator keeps control flow out of memory. -/
theorem kept_discipline : discipline.Kept := by
  rintro session task world ⟨hsession, htask, hmemory⟩
  obtain ⟨frame, entered, henters, hlocal⟩ := session.plan_local task world
  exact hlocal.disciplined hsession htask (henters.wellFormed hmemory) (Task.ordinary_iff.mp htask)
    world

end Monkey
