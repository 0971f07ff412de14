import Monkey.Proofs.Evaluation.Known
import Monkey.Proofs.Evaluation.Turns
import Monkey.Proofs.Session

/-! # Frames are isolated

Evaluation binds names in the frame that it works in and in frames that it creates, and nowhere
else. A call works in a frame of its own, so it changes no frame that exists, neither that of its
caller nor the one that the function was created in. The one way to change another frame is `get`,
which evaluates a line in the top frame. This is so turn by turn: whatever changes in a frame that
exists, it is changed by the level of a task that works in it (`Session.Turns.of_changes`).
-/

namespace Monkey

/-- The frame has kept its outer link and its names. -/
structure Frame.Grows (before after : Frame) : Prop where
  outer : after.outer = before.outer
  names : ∀ name, before.bindings.get? name ≠ none → after.bindings.get? name ≠ none

/-- Every frame is still there and has at most grown, and only where that is granted. -/
def Memory.Apart (granted : FrameRef → Prop) (before after : Memory) : Prop :=
  ∀ ref frame, before.frames[ref.index]? = some frame →
    ∃ frame', after.frames[ref.index]? = some frame' ∧ frame.Grows frame' ∧
      (frame' ≠ frame → granted ref)

/-- The step has changed the frame. -/
def Step.Changes (step : Step) (ref : FrameRef) : Prop :=
  step.before.memory.frames[ref.index]? ≠ step.after.memory.frames[ref.index]?

/-- The frame has changed in the turn. -/
def Turn.Changes (turn : Turn) (ref : FrameRef) : Prop :=
  turn.before.memory.frames[ref.index]? ≠ turn.after.memory.frames[ref.index]?

namespace Memory.Apart

variable {before middle after : Memory} {granted granted' : FrameRef → Prop}

theorem of_eq (hframes : after.frames = before.frames) : before.Apart granted after := by
  intro ref frame hframe
  rw [← hframes] at hframe
  exact ⟨frame, hframe, ⟨rfl, fun _ => id⟩, fun h => absurd rfl h⟩

theorem trans (hfirst : before.Apart granted middle) (hsecond : middle.Apart granted after) :
    before.Apart granted after := by
  intro ref frame hframe
  obtain ⟨frame', hframe', hgrows, hgranted⟩ := hfirst ref frame hframe
  obtain ⟨frame'', hframe'', hgrows', hgranted'⟩ := hsecond ref frame' hframe'
  refine ⟨frame'', hframe'', ⟨hgrows'.outer.trans hgrows.outer, fun name hname =>
    hgrows'.names name (hgrows.names name hname)⟩, fun hne => ?_⟩
  by_cases hsame : frame' = frame
  · exact hgranted' (hsame ▸ hne)
  · exact hgranted hsame

theorem mono (hapart : before.Apart granted after)
    (hgranted : ∀ ref, before.frames[ref.index]? ≠ after.frames[ref.index]? → granted ref →
      granted' ref) : before.Apart granted' after := by
  intro ref frame hframe
  obtain ⟨frame', hframe', hgrows, hold⟩ := hapart ref frame hframe
  refine ⟨frame', hframe', hgrows, fun hne => hgranted ref ?_ (hold hne)⟩
  rw [hframe, hframe']
  exact fun hsome => hne (Option.some.inj hsome).symm

theorem size_le (hapart : before.Apart granted after) :
    before.frames.size ≤ after.frames.size := by
  by_contra hlt
  obtain ⟨frame, hframe, -⟩ := hapart ⟨after.frames.size⟩ _
    (Array.getElem?_eq_getElem (Nat.lt_of_not_le hlt))
  exact absurd (Array.getElem?_eq_some_iff.mp hframe).1 (Nat.lt_irrefl _)

theorem granted_of_ne {ref : FrameRef} (hapart : before.Apart granted after)
    (hlt : ref.index < before.frames.size)
    (hne : before.frames[ref.index]? ≠ after.frames[ref.index]?) : granted ref := by
  obtain ⟨frame, hframe, -, hgranted⟩ := hapart ref _ (Array.getElem?_eq_getElem hlt)
  refine hgranted fun hsame => hne ?_
  rw [hframe, hsame, Array.getElem?_eq_getElem hlt]

theorem bind {place : FrameRef} (hgranted : granted place) (name : String) (value : Value) :
    before.Apart granted (before.bind place name value) := by
  intro ref frame hframe
  rw [Memory.bind, Array.getElem?_modify, hframe]
  by_cases hplace : place.index = ref.index
  · rw [if_pos hplace]
    refine ⟨_, rfl, ⟨rfl, fun name' hname' => ?_⟩, fun _ => ?_⟩
    · rw [Bindings.get?_set]
      split
      · exact Option.some_ne_none _
      · exact hname'
    · cases place
      cases ref
      cases hplace
      exact hgranted
  · rw [if_neg hplace]
    exact ⟨frame, rfl, ⟨rfl, fun _ => id⟩, fun h => absurd rfl h⟩

/-- A new frame is none of those that exist. -/
theorem of_newFrame {outer : Option FrameRef}
    (hapart : (before.newFrame outer).2.Apart granted after)
    (hgranted : ∀ ref, ref ≠ (before.newFrame outer).1 → granted ref → granted' ref) :
    before.Apart granted' after := by
  intro ref frame hframe
  have hlt : ref.index < before.frames.size := (Array.getElem?_eq_some_iff.mp hframe).1
  have hframe' : (before.newFrame outer).2.frames[ref.index]? = some frame := by
    rw [Memory.newFrame, Array.getElem?_push, if_neg (Nat.ne_of_lt hlt), hframe]
  obtain ⟨frame', hafter, hgrows, hold⟩ := hapart ref frame hframe'
  refine ⟨frame', hafter, hgrows, fun hne => hgranted ref ?_ (hold hne)⟩
  rintro rfl
  exact absurd hlt (Nat.lt_irrefl _)

end Memory.Apart

/-- The turn is taken inside a call of `get` that begins while the plan runs. -/
def Plan.Gets (plan : Plan) (turn : Turn) : Prop :=
  ∃ session world, plan.Begins session (.apply (.builtin .get) []) world ∧
    session.Turns world (.apply (.builtin .get) []) turn

/-- The frames that evaluation may change in the course of the given steps: the one that it works
in, and the top frame if `get` has changed it. -/
def Session.Grants (session : Session) (task : Task) (frame : Option FrameRef) (steps : List Step)
    (ref : FrameRef) : Prop :=
  frame = some ref ∨ ref = session.top ∧ (task = .apply (.builtin .get) [] ∨
    ∃ step ∈ steps, step.task = .apply (.builtin .get) [] ∧ step.Changes ref)

section

variable {session session' : Session} {task part : Task} {frame : Option FrameRef}
  {seen : List Value} {memory memory' : Memory} {world world' start : World} {result : Result}
  {steps inner outer : List Step}

theorem Builtin.Effect.frames {builtin : Builtin} {args : List Value} {value : Value}
    (heffect : Builtin.Effect memory builtin args value memory') :
    memory'.frames = memory.frames := by
  cases heffect with
  | _ => rfl

theorem Task.Does.apart {granted : FrameRef → Prop}
    (hdoes : task.Does session frame world seen result world') (hsession : session.Closed)
    (hframe : task.frame? = none ∨ task.frame? = frame)
    (hgranted : ∀ ref, frame = some ref → granted ref) :
    world.memory.Apart granted world'.memory := by
  cases hdoes with
  | bind => exact .bind (hgranted _ (hframe.resolve_left nofun).symm) _ _
  | builtin hrun => exact .of_eq (hsession.effect hrun).frames
  | _ => exact .of_eq rfl

theorem Task.Enters.frame_eq (henters : task.Enters world frame world') :
    task.frame? = none ∨ task.frame? = frame := by
  cases henters with
  | stay => exact .inr rfl
  | call => exact .inl rfl

theorem Task.Enters.apart {after : Memory} (henters : task.Enters world frame world')
    (hapart : world'.memory.Apart (session.Grants task frame steps) after) :
    world.memory.Apart (session.Grants task task.frame? steps) after := by
  cases henters with
  | stay => exact hapart
  | call =>
      refine hapart.of_newFrame fun ref hne hgrants => ?_
      rcases hgrants with hframe | htop
      · exact absurd (Option.some.inj hframe).symm hne
      · exact .inr htop

theorem Task.Hands.top_eq (hhands : task.Hands session frame world seen session' part start) :
    session'.top = session.top := by
  cases hhands with
  | _ => rfl

/-- A task that is handed on works in the frame of its level, except for a line that `get`
evaluates. -/
theorem Task.Hands.frame_eq {ref : FrameRef}
    (hhands : task.Hands session frame world seen session' part start)
    (hframe : part.frame? = some ref) :
    frame = some ref ∨ ref = session.top ∧ task = .apply (.builtin .get) [] := by
  cases hhands with
  | part hpart =>
      rcases hpart.frame with hnone | hsame
      · cases hnone.symm.trans hframe
      · exact .inl (hsame.symm.trans hframe)
  | line htask => exact .inr ⟨(Option.some.inj hframe).symm, htask⟩

/-- What a task that is handed on changes, its level may change. -/
theorem Task.Hands.grants {hends : (session'.plan start part).Ends result world'}
    (hhands : task.Hands session frame world seen session' part start) {ref : FrameRef}
    (hchanges : start.memory.frames[ref.index]? ≠ world'.memory.frames[ref.index]?)
    (hgrants : session'.Grants part part.frame? inner ref) :
    session.Grants task frame (inner ++ ⟨session', part, start, result, world', hends⟩ :: outer)
      ref := by
  rcases hgrants with hframe | ⟨href, hget⟩
  · exact (hhands.frame_eq hframe).imp_right fun h => ⟨h.1, .inl h.2⟩
  · refine .inr ⟨href.trans hhands.top_eq, .inr ?_⟩
    rcases hget with hpart | ⟨step, hstep, htask, hstepChanges⟩
    · exact ⟨⟨session', part, start, result, world', hends⟩, by simp, hpart, hchanges⟩
    · exact ⟨step, List.mem_append_left _ hstep, htask, hstepChanges⟩

theorem Session.Grants.later {ref : FrameRef} {step : Step}
    (hgrants : session.Grants task frame outer ref) :
    session.Grants task frame (inner ++ step :: outer) ref := by
  rcases hgrants with hframe | ⟨href, htask | ⟨later, hmem, hget⟩⟩
  · exact .inl hframe
  · exact .inr ⟨href, .inl htask⟩
  · refine .inr ⟨href, .inr ⟨later, ?_, hget⟩⟩
    exact List.mem_append_right _ (List.mem_cons_of_mem _ hmem)

theorem Plan.Takes.apart {plan : Plan} (htakes : plan.Takes steps result world')
    (hlocal : plan.Local session task frame seen world) (hsession : session.Closed)
    (hframe : task.frame? = none ∨ task.frame? = frame) :
    world.memory.Apart (session.Grants task frame steps) world'.memory := by
  -- The induction is on the run; each level has its own task, frame and world.
  induction htakes generalizing session task frame seen world with
  | done => exact hlocal.does.apart hsession hframe fun _ => .inl
  | pass _ ih =>
      obtain ⟨-, -, place, name, value, hplace, -, hnext⟩ := hlocal.of_pass
      exact .trans (.bind (.inl hplace) name value) (ih hnext hsession hframe)
  | @call session' part start next inner result world' outer _ _ hends htask hnext ihtask ihnext =>
      obtain ⟨hhands, hcase⟩ := hlocal.of_call
      have hsession' := hhands.closed hsession
      obtain ⟨place, entered, henters, hlocalPart⟩ := session'.plan_local part start
      have hentered := ihtask hlocalPart hsession' henters.frame_eq
      have hpart : start.memory.Apart (session.Grants task frame
          (inner ++ ⟨session', part, start, result, world', hends⟩ :: outer)) world'.memory :=
        (henters.apart hentered).mono fun _ => hhands.grants
      rw [hhands.memory_eq] at hpart
      rcases hcase with ⟨-, rfl⟩ | ⟨-, -, hafter⟩
      · cases hnext
        exact hpart
      · have hrest := ihnext (hafter result world' (Task.proper_of_ends hends)) hsession hframe
        exact hpart.trans (hrest.mono fun _ _ => Session.Grants.later)

/-- The frames that a task may change, from its beginning to its end. -/
theorem Task.apart_of_takes (hsession : session.Closed)
    (htakes : (session.plan world task).Takes steps result world') :
    world.memory.Apart (session.Grants task task.frame? steps) world'.memory := by
  obtain ⟨frame, entered, henters, hlocal⟩ := session.plan_local task world
  exact henters.apart (htakes.apart hlocal hsession henters.frame_eq)

/-! ## Turns -/

/-- A level works in the frame of its task or in a new one. -/
theorem Task.Enters.frame_of_lt {ref : FrameRef} (henters : task.Enters world frame world')
    (hlt : ref.index < world.memory.frames.size) (hframe : frame = some ref) :
    task.frame? = some ref := by
  cases henters with
  | stay => exact hframe
  | call =>
      cases hframe
      exact absurd hlt (Nat.lt_irrefl _)

theorem Task.Enters.apart_of_eq {granted : FrameRef → Prop}
    (henters : task.Enters world frame world') : world.memory.Apart granted world'.memory := by
  cases henters with
  | stay => exact .of_eq rfl
  | call => exact Memory.Apart.of_newFrame (.of_eq rfl) fun _ _ => id

theorem Plan.Gets.next {plan : Plan} {turn : Turn} (hget : plan.Gets turn) :
    (Plan.pass world plan).Gets turn := by
  obtain ⟨session, start, hbegins, hturns⟩ := hget
  exact ⟨session, start, .next hbegins, hturns⟩

theorem Plan.Gets.after {next : Result → World → Plan} {turn : Turn}
    (hends : (session.plan world task).Ends result world') (hget : (next result world').Gets turn) :
    (Plan.call session task world next).Gets turn := by
  obtain ⟨session', start, hbegins, hturns⟩ := hget
  exact ⟨session', start, .after hends hbegins, hturns⟩

theorem Session.Turns.gets {next : Result → World → Plan} {turn : Turn}
    (hturns : session.Turns world task turn)
    (hget : task = .apply (.builtin .get) [] ∨ (session.plan world task).Gets turn) :
    (Plan.call session task world next).Gets turn := by
  rcases hget with rfl | ⟨session', start, hbegins, hget⟩
  · exact ⟨session, world, .here, hturns⟩
  · exact ⟨session', start, .inside hbegins, hget⟩

/-- The task of a turn that changes a frame older than the run works in this frame. So does the
level that the plan belongs to, or the turn is taken inside a call of `get`. -/
theorem Plan.Turns.of_changes {plan : Plan} {last : World} {turn : Turn} {ref : FrameRef}
    (hturns : plan.Turns session task last turn)
    (hlocal : plan.Local session task frame seen world) (hsession : session.Closed)
    (hframe : task.frame? = none ∨ task.frame? = frame)
    (hold : frame = some ref → task.frame? = some ref)
    (hlast : last.memory.Apart (frame = some ·) world.memory)
    (hlt : ref.index < last.memory.frames.size) (hchanges : turn.Changes ref) :
    turn.task.frame? = some ref ∧ (frame = some ref ∨
      ref = session.top ∧ (task = .apply (.builtin .get) [] ∨ plan.Gets turn)) := by
  -- The induction is on the run; each level has its own task, frame and worlds.
  induction hturns generalizing frame seen world with
  | done =>
      have hdoes := hlocal.does.apart hsession hframe fun _ => id
      have hsame : frame = some ref := (hlast.trans hdoes).granted_of_ne hlt hchanges
      exact ⟨hold hsame, .inl hsame⟩
  | pass =>
      obtain ⟨-, rfl, -⟩ := hlocal.of_pass
      have hsame : frame = some ref := hlast.granted_of_ne hlt hchanges
      exact ⟨hold hsame, .inl hsame⟩
  | next _ ih =>
      obtain ⟨-, rfl, place, name, value, hplace, -, hnext⟩ := hlocal.of_pass
      obtain ⟨htask, hcase⟩ := ih hnext hsession hframe hold (.bind hplace name value)
        (Nat.lt_of_lt_of_le hlt hlast.size_le) hchanges
      exact ⟨htask, hcase.imp_right (.imp_right (.imp_right .next))⟩
  | call =>
      have hapart := hlocal.of_call.1.memory_eq ▸ hlast
      have hsame : frame = some ref := hapart.granted_of_ne hlt hchanges
      exact ⟨hold hsame, .inl hsame⟩
  | @inside session task last session' part start next turn hturns ih =>
      obtain ⟨hhands, -⟩ := hlocal.of_call
      have hlt' : ref.index < start.memory.frames.size :=
        hhands.memory_eq ▸ Nat.lt_of_lt_of_le hlt hlast.size_le
      obtain ⟨place, entered, henters, hlocalPart⟩ := session'.plan_local part start
      obtain ⟨htask, hcase⟩ := ih hlocalPart (hhands.closed hsession) henters.frame_eq
        (henters.frame_of_lt hlt') henters.apart_of_eq hlt' hchanges
      refine ⟨htask, ?_⟩
      rcases hcase with hplace | ⟨href, hget⟩
      · have hpart := hhands.frame_eq (henters.frame_of_lt hlt' hplace)
        exact hpart.imp_right fun h => ⟨h.1, .inl h.2⟩
      · have hturns : session'.Turns start part turn := hturns
        exact .inr ⟨href.trans hhands.top_eq, .inr (hturns.gets hget)⟩
  | @after session task last session' part start next result middle turn hends hturns ih =>
      obtain ⟨hhands, ⟨-, rfl⟩ | ⟨-, -, hafter⟩⟩ := hlocal.of_call
      · cases hturns
        exact absurd rfl hchanges
      · obtain ⟨inner, htakes⟩ := hends.exists_takes
        have hpart := Task.apart_of_takes (hhands.closed hsession) htakes
        have hlt' : ref.index < middle.memory.frames.size := by
          refine Nat.lt_of_lt_of_le hlt (hlast.size_le.trans ?_)
          rw [← hhands.memory_eq]
          exact hpart.size_le
        obtain ⟨htask, hcase⟩ := ih (hafter result middle (Task.proper_of_ends hends)) hsession
          hframe hold (.of_eq rfl) hlt' hchanges
        exact ⟨htask, hcase.imp_right (.imp_right (.imp_right (.after hends)))⟩

/-- Every turn of an evaluation leaves the older frames alone, except for the frame that its task
works in. This is the frame of the whole evaluation, or the turn is taken inside a call of `get`. -/
theorem Session.Turns.of_changes {turn : Turn} {ref : FrameRef}
    (hturns : session.Turns world task turn) (hsession : session.Closed)
    (hlt : ref.index < world.memory.frames.size) (hchanges : turn.Changes ref) :
    turn.task.frame? = some ref ∧ (task.frame? = some ref ∨
      ref = session.top ∧ (Plan.call session task world .done).Gets turn) := by
  obtain ⟨frame, entered, henters, hlocal⟩ := session.plan_local task world
  obtain ⟨htask, hcase⟩ := Plan.Turns.of_changes hturns hlocal hsession henters.frame_eq
    (henters.frame_of_lt hlt) henters.apart_of_eq hlt hchanges
  exact ⟨htask, hcase.imp (henters.frame_of_lt hlt) (.imp_right hturns.gets)⟩

end

namespace Session

variable {session : Session} {world world' : World} {allowed : Builtin → Prop}

theorem keptByPrograms_known (hsession : session.Closed) (hallows : session.Allows allowed) :
    session.KeptByPrograms (Memory.Known allowed) := by
  intro fuel p world value world' hmemory hrun
  have hrequires : (knowledge allowed).requires session (.program session.top p) world :=
    ⟨hsession, hallows, hmemory, nofun⟩
  exact (ensures_of_evalProgram (kept_knowledge allowed) hrequires hrun).2.2.1

theorem Rests.known (hallows : session.Allows allowed) (hrests : session.Rests world) :
    world.memory.Known allowed := by
  refine hrests.keeps ?_ (keptByPrograms_known hrests.closed hallows).bySources
  rintro _ _ _ _ ⟨⟩
  exact Memory.Each.empty.newFrame none

theorem Passes.known (hallows : session.Allows allowed) {values : List Value}
    (hpasses : session.Passes world values) : world.memory.Known allowed := by
  refine (hpasses.moment_of_kept (kept_knowledge allowed)
    (fun _ hrests => hrests.known hallows) ?_ ?_).1
  · exact fun _ hmemory => ⟨hmemory, nofun⟩
  · exact fun _ _ hmemory => ⟨hpasses.closed, hallows, hmemory, nofun⟩

/-- Evaluation leaves all frames alone but the one that it works in, and a call leaves all of them
alone. Where `get` is in reach, it may change the top frame. Whatever changes in a frame changes in
a turn of a task that works in this very frame, and in the top frame only in the evaluation of the
top frame itself or inside a call of `get`. -/
theorem passes_frame_isolation {values : List Value} (hpasses : session.Passes world values)
    {fuel : Nat} {task : Task} {result : Result}
    (hrun : task.run fuel session world = some (result, world')) :
    (Builtin.get ∉ session.registry.entries →
      (∀ value ∈ task.values, value.Known (· ≠ .get) world.memory.arrays.size) →
        world.memory.Apart (task.frame? = some ·) world'.memory) ∧
    (∃ steps, (session.plan world task).Takes steps result world' ∧
      world.memory.Apart
        (fun ref => task.frame? = some ref ∨ ref = session.top ∧
          (task = .apply (.builtin .get) [] ∨
            ∃ step ∈ steps, step.task = .apply (.builtin .get) [] ∧ step.Changes ref))
        world'.memory) ∧
    (∀ ref : FrameRef, world.memory.frames[ref.index]? ≠ world'.memory.frames[ref.index]? →
      ∃ turn, session.Turns world task turn ∧ turn.Changes ref) ∧
    ∀ turn ref, session.Turns world task turn → ref.index < world.memory.frames.size →
      turn.Changes ref → turn.task.frame? = some ref ∧ (task.frame? = some ref ∨
        ref = session.top ∧ (Plan.call session task world .done).Gets turn) := by
  obtain ⟨steps, htakes⟩ := Task.exists_takes_of_run hrun
  have hapart := Task.apart_of_takes hpasses.closed htakes
  refine ⟨fun hget hvalues => hapart.mono fun ref _ hgrants => ?_, ⟨steps, htakes, hapart⟩,
    fun ref hne => (Task.ends_of_run hrun).exists_turn (·.memory.frames[ref.index]?) hne,
    fun _ _ hturns hlt hchanges => hturns.of_changes hpasses.closed hlt hchanges⟩
  have hallows : session.Allows (· ≠ .get) :=
    ⟨by decide, fun builtin hbuiltin => ne_of_mem_of_not_mem hbuiltin hget⟩
  have hrequires : (knowledge (· ≠ .get)).requires session task world :=
    ⟨hpasses.closed, hallows, hpasses.known hallows, hvalues⟩
  have hknown := (kept_knowledge _).requires_of_takes (kept_knowledge _ _ _ _ hrequires) htakes
  rcases hgrants with hframe | ⟨-, htask | ⟨step, hstep, htask, -⟩⟩
  · exact hframe
  · exact absurd rfl (hvalues (.builtin .get) (by simp [htask, Task.values]))
  · exact absurd rfl ((hknown step hstep).2.2.2 (.builtin .get) (by simp [htask, Task.values]))

/-- A function binds its parameter and a name in a frame of its own, and a line that `get` reads
binds a name in the top frame. -/
theorem function_and_line_frame_isolation :
    (∃ world result world', Session.fresh.Passes world [] ∧
      Task.run 20 .fresh world (.apply (.function ⟨0⟩) [.integer 3]) = some (result, world') ∧
      result.values = [.integer 3] ∧ world'.memory.frames.size = 2 ∧
      world.memory.Apart (fun _ => False) world'.memory) ∧
    ∃ session world result world', Session.Passes session world [] ∧
      Task.run 20 session world (.apply (.builtin .get) []) = some (result, world') ∧
      world'.memory.frames.map (·.bindings.entries) = #[[("z", .integer 1)]] ∧
      world.memory.Apart (· = session.top) world'.memory := by
  constructor
  · have hnew : (Session.create .standard).run (.initial (.ofInput []) .empty) =
        some (.fresh, .fresh) := rfl
    have hruns : ((Session.fresh.evalSource 20 "let f = fn(x) \x7b let y = x; y \x7d").run
        .fresh).bind (fun reply =>
          (Task.run 20 .fresh reply.2 (.apply (.function ⟨0⟩) [.integer 3])).map fun answer =>
            (answer.1.values, answer.2.memory.frames.size)) = some ([.integer 3], 2) := by
      decide +kernel
    obtain ⟨reply, hreply, hruns⟩ := Option.bind_eq_some_iff.mp hruns
    obtain ⟨answer, hrun, hanswer⟩ := Option.map_eq_some_iff.mp hruns
    have hpasses : Session.fresh.Passes reply.2 [] := .rest (.evalSource (.new hnew) hreply)
    have hisolated := (passes_frame_isolation hpasses hrun).1 (by decide)
      (by simp [Task.values, Value.Known])
    refine ⟨reply.2, answer.1, answer.2, hpasses, hrun, congrArg Prod.fst hanswer,
      congrArg Prod.snd hanswer, hisolated.mono fun _ _ hframe => ?_⟩
    cases hframe
  · let session : Session := ⟨Registry.standard.withHost, ⟨0⟩, fun name _ => throw (.unbound name)⟩
    let world : World := { World.fresh with console := .ofInput "let z = 1\n".toUTF8.toList }
    have hnew : (Session.create Registry.standard.withHost).run
        (.initial (.ofInput "let z = 1\n".toUTF8.toList) .empty) = some (session, world) := rfl
    have hruns : (Task.run 20 session world (.apply (.builtin .get) [])).map
        (·.2.memory.frames.map (·.bindings.entries)) = some #[[("z", .integer 1)]] := by
      decide +kernel
    obtain ⟨answer, hrun, hanswer⟩ := Option.map_eq_some_iff.mp hruns
    have hpasses : session.Passes world [] := .rest (.new hnew)
    obtain ⟨steps, -, hisolated⟩ := (passes_frame_isolation hpasses hrun).2.1
    refine ⟨session, world, answer.1, answer.2, hpasses, hrun, hanswer, hisolated.mono ?_⟩
    rintro ref - (hframe | ⟨htop, -⟩)
    · cases hframe
    · exact htop

end Session

end Monkey
