import Monkey.Proofs.Inline
import Monkey.Proofs.Memory

/-! # Unfolding memory

As long as arrays are only created and never changed, an array holds nothing that was created after
it (`Memory.Layered`). Every value can then be written with its arrays inline (`Memory.inline`), in
agreement with its unfolding, and later creations do not change how (`Memory.Grows.inline_eq`).
-/

namespace Monkey

/-- The value with its arrays inline, given their elements. -/
def Value.inlineWith (memory : Memory) (elements : ArrayRef → List Inline) : Value → Inline
  | .integer n => .integer n
  | .float x => .float x
  | .boolean b => .boolean b
  | .string s => .string s
  | .array ref => .array (elements ref)
  | .null => .null
  | .function ref => .function ((memory.function? ref).getD default)
  | .builtin b => .builtin b
  | .returned value => .returned (value.inlineWith memory elements)
  | .error message => .error message

namespace Memory

/-- The elements of an array, with arrays inline at most the given number of levels deep. -/
def inlineElements (memory : Memory) : Nat → ArrayRef → List Inline
  | 0, _ => []
  | depth + 1, ref =>
    (memory.elements ref).toList.map (·.inlineWith memory (memory.inlineElements depth))

/-- The value with its arrays inline. -/
def inline (memory : Memory) (value : Value) : Inline :=
  value.inlineWith memory (memory.inlineElements memory.arrays.size)

def scope (memory : Memory) (frame : Frame) : Inline.Scope :=
  ⟨frame.outer, fun name => (frame.bindings.get? name).map memory.inline⟩

/-- The frames, with values inline. -/
def scopes (memory : Memory) : Inline.Scopes :=
  memory.frames.map memory.scope

end Memory

/-- The value refers to the given number of first arrays and functions only, and to no builtin
function but the standard ones. -/
def Value.Within (arrays functions : Nat) : Value → Prop
  | .array ref => ref.index < arrays
  | .function ref => ref.index < functions
  | .builtin b => b ∈ Builtin.core
  | .returned value => value.Within arrays functions
  | _ => True

/-- The value refers to arrays and functions of memory. -/
abbrev Value.In (memory : Memory) (value : Value) : Prop :=
  value.Within memory.arrays.size memory.functions.size

/-- Names are bound to values of memory, and an array holds nothing but what refers to arrays that
were created before it. -/
structure Memory.Layered (memory : Memory) : Prop where
  bound : memory.Each (·.In memory) fun _ => True
  element : ∀ {ref : ArrayRef} {value : Value}, value ∈ memory.elements ref →
    value.Within ref.index memory.functions.size

/-- Arrays and functions stay as they are when others are created. -/
structure Memory.Grows (memory memory' : Memory) : Prop where
  arrays : memory.arrays.size ≤ memory'.arrays.size
  functions : memory.functions.size ≤ memory'.functions.size
  elements : ∀ {ref : ArrayRef}, ref.index < memory.arrays.size →
    memory'.elements ref = memory.elements ref
  function : ∀ {ref : FunctionRef}, ref.index < memory.functions.size →
    memory'.function? ref = memory.function? ref

section

variable {memory memory' memory'' : Memory} {value : Value}

namespace Value

theorem Within.mono {arrays functions arrays' functions' : Nat}
    (hvalue : value.Within arrays functions) (harrays : arrays ≤ arrays')
    (hfunctions : functions ≤ functions') : value.Within arrays' functions' := by
  induction value with
  | array ref => exact Nat.lt_of_lt_of_le hvalue harrays
  | function ref => exact Nat.lt_of_lt_of_le hvalue hfunctions
  | builtin b => exact hvalue
  | returned value ih => exact ih hvalue
  | _ => trivial

theorem IsPlain.within (hvalue : value.IsPlain) (arrays functions : Nat) :
    value.Within arrays functions := by
  cases value with
  | array | function | builtin | returned => exact hvalue.elim
  | _ => trivial

theorem In.unwrapReturn (hvalue : value.In memory) : value.unwrapReturn.In memory := by
  cases value with
  | returned value => exact hvalue
  | _ => exact hvalue

theorem inlineWith_congr {elements elements' : ArrayRef → List Inline} {arrays functions : Nat}
    (helements : ∀ ref, ref.index < arrays → elements ref = elements' ref)
    (hfunction : ∀ ref, ref.index < functions → memory.function? ref = memory'.function? ref)
    (hvalue : value.Within arrays functions) :
    value.inlineWith memory elements = value.inlineWith memory' elements' := by
  induction value with
  | array ref => exact congrArg Inline.array (helements ref hvalue)
  | function ref => rw [inlineWith, inlineWith, hfunction ref hvalue]
  | returned value ih => exact congrArg Inline.returned (ih hvalue)
  | _ => rfl

theorem unfoldWith_eq {unfold : ArrayRef → Unfolded} {elements : ArrayRef → List Inline}
    {arrays functions : Nat}
    (hunfold : ∀ ref, ref.index < arrays → unfold ref = .array ((elements ref).map Inline.unfolded))
    (hvalue : value.Within arrays functions) :
    value.unfoldWith memory unfold = (value.inlineWith memory elements).unfolded := by
  induction value with
  | array ref =>
      rw [inlineWith, Inline.unfolded, Inline.unfoldedAll_eq]
      exact hunfold ref hvalue
  | returned value ih => exact congrArg Unfolded.returned (ih hvalue)
  | _ => rfl

end Value

namespace Memory.Grows

theorem refl (memory : Memory) : memory.Grows memory :=
  ⟨Nat.le_refl _, Nat.le_refl _, fun _ => rfl, fun _ => rfl⟩

theorem trans (hfirst : memory.Grows memory') (hsecond : memory'.Grows memory'') :
    memory.Grows memory'' where
  arrays := Nat.le_trans hfirst.arrays hsecond.arrays
  functions := Nat.le_trans hfirst.functions hsecond.functions
  elements href :=
    (hsecond.elements (Nat.lt_of_lt_of_le href hfirst.arrays)).trans (hfirst.elements href)
  function href :=
    (hsecond.function (Nat.lt_of_lt_of_le href hfirst.functions)).trans (hfirst.function href)

theorem within (hgrows : memory.Grows memory') (hvalue : value.In memory) : value.In memory' :=
  hvalue.mono hgrows.arrays hgrows.functions

/-- Neither a deeper unfolding nor later creations change the elements of an array. -/
theorem inlineElements_eq (hgrows : memory.Grows memory') (hlayered : memory.Layered)
    {depth depth' : Nat} {ref : ArrayRef} (href : ref.index < memory.arrays.size)
    (hdepth : ref.index < depth) (hdepth' : ref.index < depth') :
    memory'.inlineElements depth' ref = memory.inlineElements depth ref := by
  induction depth generalizing depth' ref with
  | zero => exact absurd hdepth (Nat.not_lt_zero _)
  | succ depth ih =>
      obtain ⟨depth', rfl⟩ : ∃ n, depth' = n + 1 := ⟨depth' - 1, by omega⟩
      rw [inlineElements, inlineElements, hgrows.elements href]
      refine List.map_congr_left fun value hvalue => ?_
      refine Value.inlineWith_congr (fun ref' href' => ?_) (fun _ => hgrows.function)
        (hlayered.element (Array.mem_toList_iff.mp hvalue))
      exact ih (by omega) (by omega) (by omega)

theorem inline_eq (hgrows : memory.Grows memory') (hlayered : memory.Layered)
    (hvalue : value.In memory) : memory'.inline value = memory.inline value :=
  Value.inlineWith_congr
    (fun _ href =>
      hgrows.inlineElements_eq hlayered href href (Nat.lt_of_lt_of_le href hgrows.arrays))
    (fun _ => hgrows.function) hvalue

theorem scope_eq (hgrows : memory.Grows memory') (hlayered : memory.Layered) {frame : Frame}
    (hframe : ∀ name value, frame.bindings.get? name = some value → value.In memory) :
    memory'.scope frame = memory.scope frame := by
  unfold Memory.scope
  congr 1
  funext name
  refine Option.map_congr fun value hvalue => ?_
  exact hgrows.inline_eq hlayered (hframe name value hvalue)

/-- Creating arrays and functions changes no frame. -/
theorem scopes_eq (hgrows : memory.Grows memory') (hlayered : memory.Layered)
    (hframes : memory'.frames = memory.frames) : memory'.scopes = memory.scopes := by
  rw [scopes, scopes, hframes]
  refine Array.map_congr_left fun frame hframe => ?_
  obtain ⟨place, hplace⟩ := Array.mem_iff_getElem?.mp hframe
  exact hgrows.scope_eq hlayered fun name value hvalue => hlayered.bound.bound hplace hvalue

end Memory.Grows

namespace Memory.Layered

theorem inline_array (hlayered : memory.Layered) {ref : ArrayRef}
    (href : ref.index < memory.arrays.size) :
    memory.inline (.array ref) = .array ((memory.elements ref).toList.map memory.inline) := by
  obtain ⟨depth, hdepth⟩ : ∃ n, memory.arrays.size = n + 1 := ⟨memory.arrays.size - 1, by omega⟩
  rw [inline, Value.inlineWith, hdepth, inlineElements]
  refine congrArg Inline.array (List.map_congr_left fun value hvalue => ?_)
  refine Value.inlineWith_congr (fun ref' href' => ?_) (fun _ _ => rfl)
    (hlayered.element (Array.mem_toList_iff.mp hvalue))
  exact (Grows.refl memory).inlineElements_eq hlayered (by omega) (by omega) (by omega)

theorem unfoldArray_eq (hlayered : memory.Layered) {depth depth' : Nat} {path : List ArrayRef}
    {ref : ArrayRef} (hpath : ∀ above ∈ path, ref.index < above.index) (hdepth : ref.index < depth)
    (hdepth' : ref.index < depth') :
    memory.unfoldArray depth path ref =
      .array ((memory.inlineElements depth' ref).map Inline.unfolded) := by
  induction depth generalizing depth' path ref with
  | zero => exact absurd hdepth (Nat.not_lt_zero _)
  | succ depth ih =>
      obtain ⟨depth', rfl⟩ : ∃ n, depth' = n + 1 := ⟨depth' - 1, by omega⟩
      -- The arrays of the path were created after the array, so it is none of them.
      have hfresh : ref ∉ path := fun hmem => Nat.lt_irrefl _ (hpath ref hmem)
      rw [unfoldArray, if_neg hfresh, inlineElements, List.map_map]
      refine congrArg Unfolded.array (List.map_congr_left fun value hvalue => ?_)
      refine Value.unfoldWith_eq (fun ref' href' => ?_)
        (hlayered.element (Array.mem_toList_iff.mp hvalue))
      refine ih ?_ (by omega) (by omega)
      simp only [List.forall_mem_cons]
      exact ⟨href', fun above habove => Nat.lt_trans href' (hpath above habove)⟩

/-- Inline values are unfolded values, with the frames of functions. -/
theorem unfold_eq (hlayered : memory.Layered) (hvalue : value.In memory) :
    memory.unfold value = (memory.inline value).unfolded :=
  Value.unfoldWith_eq
    (fun _ href => hlayered.unfoldArray_eq nofun (Nat.lt_succ_of_lt href) href) hvalue

theorem text?_eq (hlayered : memory.Layered) (hvalue : value.In memory) :
    memory.text? value = some (memory.inline value).text := by
  rw [text?, hlayered.unfold_eq hvalue, Inline.text?_unfolded]

/-- The elements of an array are values of memory. -/
theorem in_of_mem_elements (hlayered : memory.Layered) {ref : ArrayRef}
    (hvalue : value ∈ memory.elements ref) : value.In memory := by
  obtain ⟨elements, harray, -⟩ := mem_of_mem_elements hvalue
  obtain ⟨hlt, -⟩ := Array.getElem?_eq_some_iff.mp harray
  exact (hlayered.element hvalue).mono (Nat.le_of_lt hlt) (Nat.le_refl _)

theorem in_of_lookup? (hlayered : memory.Layered) {frame : FrameRef} {name : String}
    (hlookup : memory.lookup? frame name = some value) : value.In memory := by
  obtain ⟨place, f, hframe, hget⟩ := bound_of_lookupWithin hlookup
  exact hlayered.bound.bound hframe hget

end Memory.Layered

/-! ## Creations and bindings -/

/-- What evaluation does to memory when no array is changed. -/
structure Memory.Evolves (memory memory' : Memory) : Prop where
  grows : memory.Grows memory'
  layered : memory'.Layered

theorem Memory.Evolves.trans (hfirst : memory.Evolves memory')
    (hsecond : memory'.Evolves memory'') : memory.Evolves memory'' :=
  ⟨hfirst.grows.trans hsecond.grows, hsecond.layered⟩

namespace Memory.Layered

theorem empty : Memory.empty.Layered where
  bound := .empty
  element hvalue := by simp [Memory.elements, Memory.empty] at hvalue

theorem refl (hlayered : memory.Layered) : memory.Evolves memory :=
  ⟨.refl memory, hlayered⟩

/-- Frames may change as long as names are bound to values of memory. -/
theorem withFrames (hlayered : memory.Layered) {frames : Array Frame}
    (hbound : { memory with frames }.Each (·.In memory) fun _ => True) :
    memory.Evolves { memory with frames } :=
  ⟨⟨Nat.le_refl _, Nat.le_refl _, fun _ => rfl, fun _ => rfl⟩, hbound, hlayered.element⟩

theorem newFrame (hlayered : memory.Layered) (outer : Option FrameRef) :
    memory.Evolves (memory.newFrame outer).2 :=
  hlayered.withFrames (hlayered.bound.newFrame outer)

theorem bind (hlayered : memory.Layered) (frame : FrameRef) (name : String)
    (hvalue : value.In memory) : memory.Evolves (memory.bind frame name value) :=
  hlayered.withFrames (hlayered.bound.bind frame name hvalue)

theorem newFunction (hlayered : memory.Layered) (function : Function) :
    memory.Evolves (memory.newFunction function).2 := by
  have hgrows : memory.Grows (memory.newFunction function).2 := by
    refine ⟨Nat.le_refl _, ?_, fun _ => rfl, fun href => ?_⟩
    · simp [Memory.newFunction]
    · simp only [function?, Memory.newFunction, Array.getElem?_push]
      rw [if_neg (Nat.ne_of_lt href)]
  refine ⟨hgrows, ?_, fun hvalue => ?_⟩
  · exact (hlayered.bound.newFunction function).mono (fun _ => hgrows.within) fun _ => id
  · exact (hlayered.element hvalue).mono (Nat.le_refl _) hgrows.functions

theorem newArray (hlayered : memory.Layered) {elements : Array Value}
    (helements : ∀ value ∈ elements, value.In memory) :
    memory.Evolves (memory.newArray elements).2 := by
  have hgrows : memory.Grows (memory.newArray elements).2 := by
    refine ⟨?_, Nat.le_refl _, fun href => ?_, fun _ => rfl⟩
    · simp [Memory.newArray]
    · simp only [Memory.elements, Memory.newArray, Array.getElem?_push]
      rw [if_neg (Nat.ne_of_lt href)]
  refine ⟨hgrows, ?_, fun {ref value} hvalue => ?_⟩
  · exact (Each.newArray hlayered.bound fun _ _ => trivial).mono (fun _ => hgrows.within)
      fun _ => id
  · simp only [Memory.elements, Memory.newArray, Array.getElem?_push] at hvalue
    split at hvalue
    next hplace =>
      rw [hplace]
      exact helements value hvalue
    next => exact hlayered.element hvalue

theorem inline_newArray (hlayered : memory.Layered) {elements : Array Value}
    (helements : ∀ value ∈ elements, value.In memory) :
    (memory.newArray elements).2.inline (.array (memory.newArray elements).1) =
      .array (elements.toList.map memory.inline) := by
  have hevolves := hlayered.newArray helements
  rw [hevolves.layered.inline_array (by simp [Memory.newArray]), elements_newArray]
  refine congrArg Inline.array (List.map_congr_left fun value hvalue => ?_)
  exact hevolves.grows.inline_eq hlayered (helements value (Array.mem_toList_iff.mp hvalue))

theorem scopes_newFrame (hlayered : memory.Layered) (outer : Option FrameRef) :
    memory.scopes.newFrame outer =
      ((memory.newFrame outer).1, (memory.newFrame outer).2.scopes) := by
  have hgrows := (hlayered.newFrame outer).grows
  unfold Inline.Scopes.newFrame
  simp only [scopes, Memory.newFrame, Array.size_map, Array.map_push]
  congr 2
  refine Array.map_congr_left fun frame hframe => ?_
  obtain ⟨place, hplace⟩ := Array.mem_iff_getElem?.mp hframe
  exact (hgrows.scope_eq hlayered fun _ _ hget => hlayered.bound.bound hplace hget).symm

/-- Binding a name in a frame binds it in the scope. -/
theorem scope_set (memory : Memory) (frame : Frame) (name : String) (value : Value) :
    memory.scope { frame with bindings := frame.bindings.set name value } =
      { memory.scope frame with
        value? := fun other =>
          if other = name then some (memory.inline value)
          else (memory.scope frame).value? other } := by
  simp only [scope, Bindings.get?_set]
  congr 1
  funext other
  split
  · rfl
  · rfl

theorem scopes_bind (hlayered : memory.Layered) (frame : FrameRef) (name : String)
    (hvalue : value.In memory) :
    (memory.bind frame name value).scopes =
      memory.scopes.bind frame name (memory.inline value) := by
  have hgrows := (hlayered.bind frame name hvalue).grows
  refine Array.ext_getElem? fun place => ?_
  rw [scopes, scopes, Inline.Scopes.bind, Array.getElem?_map, Array.getElem?_modify,
    Array.getElem?_map]
  change Option.map _ (memory.frames.modify frame.index _)[place]? = _
  rw [Array.getElem?_modify]
  cases hplace : memory.frames[place]? with
  | none => simp
  | some f =>
      have hscope : (memory.bind frame name value).scope f = memory.scope f :=
        hgrows.scope_eq hlayered fun _ _ hget => hlayered.bound.bound hplace hget
      split
      · simp only [Option.map_some, scope_set, hscope, hgrows.inline_eq hlayered hvalue]
      · rw [Option.map_some, Option.map_some, hscope]

end Memory.Layered

end

end Monkey
