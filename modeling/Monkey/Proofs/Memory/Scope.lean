import Mathlib.Tactic.Common
import Monkey.Memory

/-! # Where names are found

Frames are created within others, and names are bound in them, in any order. What a lookup finds is
decided by this history alone: it is the latest value for the name in the first frame that has ever
been given one, from the frame of the lookup outward (`History.lookup?_nearest`). A frame lies
within older frames only, so the way outward has an end.
-/

namespace Monkey

/-! ## Frames of a memory -/

namespace Memory

variable {memory : Memory}

/-- What the frame itself binds the name to. -/
def own? (memory : Memory) (frame : FrameRef) (name : String) : Option Value :=
  memory.frames[frame.index]?.bind (·.bindings.get? name)

/-- The frame around the frame. -/
def outer? (memory : Memory) (frame : FrameRef) : Option FrameRef :=
  (memory.frames.map Frame.outer)[frame.index]?.join

/-- Binding a name leaves all other bindings alone. -/
theorem own?_bind_of_ne {frame frame' : FrameRef} {name name' : String} (value : Value)
    (hne : frame' ≠ frame ∨ name' ≠ name) :
    (memory.bind frame name value).own? frame' name' = memory.own? frame' name' := by
  rw [own?, own?, bind, Array.getElem?_modify]
  split
  next hindex =>
    have hframe : frame = frame' := congrArg FrameRef.mk hindex
    have hname : name' ≠ name := hne.resolve_left fun hne => hne hframe.symm
    cases memory.frames[frame'.index]? with
    | none => rfl
    | some f => simp [Bindings.get?_set, hname]
  next => rfl

theorem own?_bind_self (frame : FrameRef) (name : String) (value : Value) :
    (memory.bind frame name value).own? frame name =
      if frame.index < memory.frames.size then some value else none := by
  rw [own?, bind, Array.getElem?_modify, if_pos rfl]
  split
  next hlt => simp [Array.getElem?_eq_getElem hlt, Bindings.get?_set]
  next hlt => simp [Array.getElem?_eq_none (Nat.le_of_not_lt hlt)]

/-- A new frame binds nothing. -/
theorem own?_newFrame (outer : Option FrameRef) (frame : FrameRef) (name : String) :
    (memory.newFrame outer).2.own? frame name = memory.own? frame name := by
  rw [own?, own?, newFrame, Array.getElem?_push]
  split
  next hindex =>
    rw [hindex, Array.getElem?_eq_none (Nat.le_refl _)]
    rfl
  next => rfl

theorem map_outer_bind (frame : FrameRef) (name : String) (value : Value) :
    (memory.bind frame name value).frames.map Frame.outer = memory.frames.map Frame.outer := by
  refine Array.ext_getElem? fun i => ?_
  rw [Array.getElem?_map, Array.getElem?_map, bind, Array.getElem?_modify]
  split
  · rw [Option.map_map]
    rfl
  · rfl

theorem outer?_bind (frame frame' : FrameRef) (name : String) (value : Value) :
    (memory.bind frame name value).outer? frame' = memory.outer? frame' := by
  rw [outer?, outer?, map_outer_bind]

theorem outer?_newFrame (outer : Option FrameRef) (frame : FrameRef) :
    (memory.newFrame outer).2.outer? frame =
      if frame.index = memory.frames.size then outer else memory.outer? frame := by
  rw [outer?, outer?, newFrame, Array.map_push, Array.getElem?_push, Array.size_map]
  split
  · rfl
  · rfl

theorem lookupWithin_succ (name : String) (count : Nat) (frame : FrameRef) :
    memory.lookupWithin name (count + 1) frame =
      (memory.own? frame name).or
        ((memory.outer? frame).bind (memory.lookupWithin name count)) := by
  rw [lookupWithin, own?, outer?, Array.getElem?_map]
  cases memory.frames[frame.index]? with
  | none => rfl
  | some f =>
      simp only [Option.bind_eq_bind, Option.bind_some]
      cases f.bindings.get? name with
      | none => simp
      | some value => simp

end Memory

/-! ## Histories -/

/-- A result at one place of a list is found if nothing is found before that place. -/
theorem findSome?_ite {α β : Type} [DecidableEq α] (f : α → Option β) (place : α) (b : β)
    (as : List α) :
    (as.findSome? fun a => if a = place then some b else f a) =
      if place ∈ as ∧ ∀ a ∈ as.takeWhile (· ≠ place), f a = none then some b
      else as.findSome? f := by
  induction as with
  | nil => simp
  | cons a as ih =>
      rw [List.findSome?_cons, List.findSome?_cons, ih]
      by_cases hplace : a = place
      · simp [hplace]
      · cases ha : f a with
        | none => simp [hplace, Ne.symm hplace, ha]
        | some other => simp [hplace, ha]

/-- Frames that are created and names that are bound, one after the other. The index is the number
of frames in the end; a frame is known by the number of those created before it. -/
inductive History : Nat → Type
  | start : History 0
  | newFrame {count : Nat} (past : History count) (outer : Option (Fin count)) : History (count + 1)
  | bind {count : Nat} (past : History count) (frame : Fin count) (name : String) (value : Value) :
      History count

/-- The frame with the given number. -/
def FrameRef.ofFin {count : Nat} (frame : Fin count) : FrameRef :=
  ⟨frame.val⟩

namespace History

variable {count : Nat}

/-- The memory that the history leads to. -/
def memory {count : Nat} : History count → Memory
  | start => .empty
  | newFrame past outer => (past.memory.newFrame (outer.map .ofFin)).2
  | bind past frame name value => past.memory.bind (.ofFin frame) name value

/-- The frame in which the frame was created. -/
def outer? {count : Nat} : History count → FrameRef → Option FrameRef
  | start, _ => none
  | @newFrame number past outer, frame =>
    if frame.index = number then outer.map .ofFin else past.outer? frame
  | bind past _ _ _, frame => past.outer? frame

/-- The value that the name was most recently bound to in the frame. -/
def latest? {count : Nat} : History count → FrameRef → String → Option Value
  | start, _, _ => none
  | newFrame past _, frame, name => past.latest? frame name
  | bind past frame' name' value, frame, name =>
    if frame = .ofFin frame' ∧ name = name' then some value else past.latest? frame name

/-- The frames from the given one outward, up to one that was created in no other. -/
inductive Chain (history : History count) : FrameRef → List FrameRef → Prop
  | top {frame : FrameRef} : history.outer? frame = none → Chain history frame [frame]
  | within {frame outer : FrameRef} {chain : List FrameRef} :
      history.outer? frame = some outer → Chain history outer chain →
        Chain history frame (frame :: chain)

variable {history : History count} {frame outer : FrameRef} {chain : List FrameRef} {name : String}

/-! ## What memory keeps of its history -/

theorem size_frames (history : History count) : history.memory.frames.size = count := by
  induction history with
  | start => rfl
  | newFrame past outer ih => simp [memory, Memory.newFrame, ih]
  | bind past frame name value ih => simp [memory, Memory.bind, ih]

theorem own?_memory (history : History count) (frame : FrameRef) (name : String) :
    history.memory.own? frame name = history.latest? frame name := by
  induction history with
  | start => rfl
  | newFrame past outer ih => exact (Memory.own?_newFrame _ frame name).trans ih
  | bind past frame' name' value ih =>
      rw [memory, latest?]
      split
      next hsame =>
        obtain ⟨rfl, rfl⟩ := hsame
        rw [Memory.own?_bind_self, past.size_frames]
        exact if_pos frame'.isLt
      next hother =>
        rw [Memory.own?_bind_of_ne value (not_and_or.mp hother), ih]

theorem outer?_memory (history : History count) (frame : FrameRef) :
    history.memory.outer? frame = history.outer? frame := by
  induction history with
  | start => simp [memory, Memory.outer?, Memory.empty, outer?]
  | newFrame past outer ih => rw [memory, Memory.outer?_newFrame, past.size_frames, ih, outer?]
  | bind past frame' name value ih => rw [memory, Memory.outer?_bind, ih, outer?]

/-- A frame is created in one that is there already. -/
theorem index_lt_of_outer? (houter : history.outer? frame = some outer) :
    outer.index < frame.index := by
  induction history with
  | start => cases houter
  | @newFrame number past around ih =>
      rw [outer?] at houter
      split at houter
      next hnew =>
        obtain ⟨place, -, rfl⟩ := Option.map_eq_some_iff.mp houter
        exact hnew ▸ place.isLt
      next => exact ih houter
  | bind past _ _ _ ih => exact ih houter

/-! ## Outward -/

theorem exists_chain (history : History count) (frame : FrameRef) :
    ∃ chain, history.Chain frame chain := by
  induction hindex : frame.index using Nat.strongRecOn generalizing frame with
  | ind index ih =>
      cases houter : history.outer? frame with
      | none => exact ⟨[frame], .top houter⟩
      | some outer =>
          obtain ⟨chain, hchain⟩ := ih outer.index (hindex ▸ index_lt_of_outer? houter) outer rfl
          exact ⟨frame :: chain, .within houter hchain⟩

namespace Chain

theorem index_le (hchain : history.Chain frame chain) :
    ∀ other ∈ chain, other.index ≤ frame.index := by
  induction hchain with
  | top => simp
  | within houter _ ih =>
      have hlt := index_lt_of_outer? houter
      refine List.forall_mem_cons.mpr ⟨Nat.le_refl _, fun other hother => ?_⟩
      exact Nat.le_of_lt (Nat.lt_of_le_of_lt (ih other hother) hlt)

/-- Each frame is older than those before it, so none is met twice. -/
theorem pairwise (hchain : history.Chain frame chain) :
    chain.Pairwise fun inner outer => outer.index < inner.index := by
  induction hchain with
  | top => exact List.pairwise_singleton _ _
  | within houter hchain ih =>
      refine List.pairwise_cons.mpr ⟨fun other hother => ?_, ih⟩
      exact Nat.lt_of_le_of_lt (hchain.index_le other hother) (index_lt_of_outer? houter)

theorem length_le (hchain : history.Chain frame chain) : chain.length ≤ frame.index + 1 := by
  induction hchain with
  | top => simp
  | within houter _ ih =>
      have hlt := index_lt_of_outer? houter
      rw [List.length_cons]
      omega

theorem lookupWithin_eq (hchain : history.Chain frame chain) (name : String) {bound : Nat}
    (hbound : chain.length ≤ bound) :
    history.memory.lookupWithin name bound frame = chain.findSome? (history.latest? · name) := by
  induction hchain generalizing bound with
  | @top frame houter =>
      obtain ⟨bound, rfl⟩ : ∃ n, bound = n + 1 := ⟨bound - 1, by simp at hbound; omega⟩
      rw [Memory.lookupWithin_succ, own?_memory, outer?_memory, houter]
      simp
  | @within frame outer chain houter _ ih =>
      rw [List.length_cons] at hbound
      obtain ⟨bound, rfl⟩ : ∃ n, bound = n + 1 := ⟨bound - 1, by omega⟩
      rw [Memory.lookupWithin_succ, own?_memory, outer?_memory, houter, Option.bind_some,
        ih (by omega), List.findSome?_cons]
      cases history.latest? frame name <;> rfl

/-- A lookup goes outward until a frame has been given the name. -/
theorem lookup?_eq (hchain : history.Chain frame chain) (name : String) :
    history.memory.lookup? frame name = chain.findSome? (history.latest? · name) :=
  hchain.lookupWithin_eq name hchain.length_le

/-- A later binding does not move frames. -/
theorem bind (hchain : history.Chain frame chain) (other : Fin count) (name : String)
    (value : Value) : (history.bind other name value).Chain frame chain := by
  induction hchain with
  | top houter => exact .top houter
  | within houter _ ih => exact .within houter ih

end Chain

/-- A later binding is found from the frame if it is one of the frames outward and no nearer one
has been given the name. -/
theorem Chain.lookup?_bind (hchain : history.Chain frame chain) (other : Fin count)
    (name name' : String) (value : Value) :
    (history.bind other name value).memory.lookup? frame name' =
      if name' = name ∧ FrameRef.ofFin other ∈ chain ∧
          ∀ nearer ∈ chain.takeWhile (· ≠ FrameRef.ofFin other), history.latest? nearer name = none
      then some value
      else history.memory.lookup? frame name' := by
  rw [(hchain.bind other name value).lookup?_eq, hchain.lookup?_eq]
  by_cases hname : name' = name
  · subst hname
    simp only [latest?, and_true, true_and]
    exact findSome?_ite _ _ _ _
  · simp [latest?, hname]

/-- Whatever frames have been created and whatever names have been bound, each frame has an end
outward. A lookup from it finds the latest value in the first frame on this way that has been given
the name. So it sees bindings in frames around it, also those that are made later, and no others. -/
theorem lookup?_nearest (history : History count) (frame : Fin count) :
    (∀ outer, (history.memory.newFrame outer).1 = ⟨count⟩) ∧
    (∀ frame, history.memory.outer? frame = history.outer? frame) ∧
    ∃ chain, history.Chain (.ofFin frame) chain ∧
      chain.Pairwise (fun inner outer => outer.index < inner.index) ∧
      (∀ child, history.outer? child = some (.ofFin frame) → child ∉ chain) ∧
      (∀ name, history.memory.lookup? (.ofFin frame) name =
        chain.findSome? (history.latest? · name)) ∧
      ∀ (other : Fin count) (name name' : String) (value : Value),
        (history.bind other name value).memory.lookup? (.ofFin frame) name' =
          if name' = name ∧ FrameRef.ofFin other ∈ chain ∧
              ∀ nearer ∈ chain.takeWhile (· ≠ FrameRef.ofFin other),
                history.latest? nearer name = none
          then some value
          else history.memory.lookup? (.ofFin frame) name' := by
  obtain ⟨chain, hchain⟩ := history.exists_chain (.ofFin frame)
  refine ⟨fun _ => congrArg FrameRef.mk history.size_frames, history.outer?_memory, chain, hchain,
    hchain.pairwise, fun child houter hmem => ?_, hchain.lookup?_eq, hchain.lookup?_bind⟩
  exact Nat.not_lt_of_le (hchain.index_le child hmem) (index_lt_of_outer? houter)

end History

end Monkey
