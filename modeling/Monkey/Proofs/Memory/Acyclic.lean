import Mathlib.Data.List.Perm.Subperm
import Mathlib.Logic.Relation
import Monkey.Memory.Equality
import Monkey.Memory.Unfolding
import Monkey.Proofs.Memory

/-! # Arrays that contain one another

An array contains another if that is one of its elements. Creating an array closes no cycle, and
adding an element to an array closes one only if the array can be reached from the element
(`Memory.acyclic_append_iff`). Without cycles a path from array to array is no longer than there are
arrays, so that every value has a text and any two values can be compared.
-/

namespace Monkey

open Relation

/-- The value is the array, or a pending return that carries it. -/
inductive Value.Refers : Value → ArrayRef → Prop
  | array {ref} : Refers (.array ref) ref
  | returned {value ref} (hvalue : Refers value ref) : Refers (.returned value) ref

namespace Memory

/-- The second array is an element of the first. -/
def Contains (memory : Memory) (ref held : ArrayRef) : Prop :=
  ∃ value ∈ memory.elements ref, value.Refers held

/-- No array contains itself, not even through other arrays. -/
def Acyclic (memory : Memory) : Prop :=
  ∀ ref, ¬ TransGen memory.Contains ref ref

variable {memory memory' : Memory} {ref held first last : ArrayRef} {value : Value}

theorem contains_congr (harrays : memory'.arrays = memory.arrays) :
    memory'.Contains = memory.Contains := by
  unfold Contains elements
  rw [harrays]

theorem acyclic_congr (harrays : memory'.arrays = memory.arrays) :
    memory'.Acyclic ↔ memory.Acyclic := by
  rw [Acyclic, Acyclic, contains_congr harrays]

/-- An array that contains something exists. -/
theorem Contains.lt_size (hcontains : memory.Contains ref held) :
    ref.index < memory.arrays.size := by
  obtain ⟨value, hvalue, -⟩ := hcontains
  obtain ⟨elements, harray, -⟩ := mem_of_mem_elements hvalue
  exact (Array.getElem?_eq_some_iff.mp harray).1

/-! ## Adding an element -/

theorem elements_append (href : ref.index < memory.arrays.size) (value : Value) :
    (memory.append ref value).elements first =
      if first = ref then (memory.elements ref).push value else memory.elements first := by
  unfold append elements
  rw [Array.getElem?_modify]
  by_cases hsame : first = ref
  · subst hsame
    simp [href]
  · have hne : ref.index ≠ first.index := fun h => hsame (congrArg ArrayRef.mk h).symm
    rw [if_neg hne, if_neg hsame]

theorem contains_append (href : ref.index < memory.arrays.size) :
    (memory.append ref value).Contains first last ↔
      memory.Contains first last ∨ first = ref ∧ value.Refers last := by
  unfold Contains
  rw [elements_append href]
  by_cases hsame : first = ref
  · subst hsame
    simp only [if_true, Array.mem_push, true_and]
    constructor
    · rintro ⟨other, hother | rfl, hrefers⟩
      · exact .inl ⟨other, hother, hrefers⟩
      · exact .inr hrefers
    · rintro (⟨other, hother, hrefers⟩ | hrefers)
      · exact ⟨other, .inl hother, hrefers⟩
      · exact ⟨value, .inr rfl, hrefers⟩
  · simp only [hsame, if_false, false_and, or_false]

/-- A path is an old one, or it goes through the new element. -/
theorem transGen_append (href : ref.index < memory.arrays.size)
    (hpath : TransGen (memory.append ref value).Contains first last) :
    TransGen memory.Contains first last ∨ ∃ held, value.Refers held ∧
      ReflTransGen memory.Contains first ref ∧ ReflTransGen memory.Contains held last := by
  induction hpath with
  | single hedge =>
      rcases (contains_append href).mp hedge with hold | ⟨rfl, hrefers⟩
      · exact .inl (.single hold)
      · exact .inr ⟨_, hrefers, .refl, .refl⟩
  | tail _ hedge ih =>
      rcases (contains_append href).mp hedge with hold | ⟨rfl, hrefers⟩
      · rcases ih with hpath | ⟨held, hheld, hfirst, hlast⟩
        · exact .inl (hpath.tail hold)
        · exact .inr ⟨held, hheld, hfirst, hlast.tail hold⟩
      · rcases ih with hpath | ⟨-, -, hfirst, -⟩
        · exact .inr ⟨_, hrefers, hpath.to_reflTransGen, .refl⟩
        · exact .inr ⟨_, hrefers, hfirst, .refl⟩

/-- Adding an element closes a cycle exactly if the array can be reached from it. -/
theorem acyclic_append_iff (href : ref.index < memory.arrays.size) :
    (memory.append ref value).Acyclic ↔
      memory.Acyclic ∧ ∀ held, value.Refers held → ¬ ReflTransGen memory.Contains held ref := by
  have hmono : memory.Contains ≤ (memory.append ref value).Contains :=
    fun _ _ hold => (contains_append href).mpr (.inl hold)
  constructor
  · intro hacyclic
    refine ⟨fun first hcycle => hacyclic first (TransGen.mono hmono _ _ hcycle),
      fun held hrefers hback => ?_⟩
    have hedge : (memory.append ref value).Contains ref held :=
      (contains_append href).mpr (.inr ⟨rfl, hrefers⟩)
    exact hacyclic ref (.head' hedge (ReflTransGen.mono hmono _ _ hback))
  · rintro ⟨hacyclic, hnone⟩ first hcycle
    rcases transGen_append href hcycle with hold | ⟨held, hrefers, hfirst, hheld⟩
    · exact hacyclic first hold
    · exact hnone held hrefers (hheld.trans hfirst)

/-! ## Creating an array -/

theorem elements_newArray_of_ne {elements : Array Value}
    (hne : ref ≠ (memory.newArray elements).1) :
    (memory.newArray elements).2.elements ref = memory.elements ref := by
  have hindex : ref.index ≠ memory.arrays.size := fun h => hne (congrArg ArrayRef.mk h)
  unfold newArray Memory.elements
  rw [Array.getElem?_push, if_neg hindex]

/-- Nothing contains an array that has just been created, so it is on no cycle. -/
theorem acyclic_newArray_iff {elements : Array Value}
    (hexists : ∀ ref held, memory.Contains ref held → held.index < memory.arrays.size)
    (helements : ∀ value ∈ elements, ∀ held, value.Refers held → held.index < memory.arrays.size) :
    (memory.newArray elements).2.Acyclic ↔ memory.Acyclic := by
  have hold {ref held : ArrayRef} (hne : ref ≠ (memory.newArray elements).1) :
      (memory.newArray elements).2.Contains ref held ↔ memory.Contains ref held := by
    rw [Contains, elements_newArray_of_ne hne, Contains]
  have hlt {ref held : ArrayRef} (hedge : (memory.newArray elements).2.Contains ref held) :
      held ≠ (memory.newArray elements).1 := by
    rintro rfl
    by_cases hne : ref = (memory.newArray elements).1
    · obtain ⟨value, hvalue, hrefers⟩ := hedge
      rw [hne, elements_newArray] at hvalue
      exact Nat.lt_irrefl _ (helements value hvalue _ hrefers)
    · exact Nat.lt_irrefl _ (hexists ref _ ((hold hne).mp hedge))
  constructor
  · intro hacyclic ref hcycle
    refine hacyclic ref (TransGen.mono (fun first last hedge => (hold ?_).mpr hedge) _ _ hcycle)
    rintro rfl
    exact Nat.lt_irrefl _ hedge.lt_size
  · -- An array on a cycle is contained in something, so it is not the new one.
    intro hacyclic ref hcycle
    have hpath {first last : ArrayRef} (hne : first ≠ (memory.newArray elements).1)
        (hpath : TransGen (memory.newArray elements).2.Contains first last) :
        TransGen memory.Contains first last := by
      induction hpath with
      | single hedge => exact .single ((hold hne).mp hedge)
      | tail hpath hedge ih =>
          obtain ⟨middle, -, hmiddle⟩ := TransGen.tail'_iff.mp hpath
          exact ih.tail ((hold (hlt hmiddle)).mp hedge)
    obtain ⟨middle, -, hmiddle⟩ := TransGen.tail'_iff.mp hcycle
    exact hacyclic ref (hpath (hlt hmiddle) hcycle)

/-! ## Paths without cycles -/

/-- The arrays that were passed on the way to an array, the last of them first. -/
structure Passed (memory : Memory) (path : List ArrayRef) (ref : ArrayRef) : Prop where
  reaches : ∀ above ∈ path, TransGen memory.Contains above ref
  lt_size : ∀ above ∈ path, above.index < memory.arrays.size
  nodup : path.Nodup

variable {path : List ArrayRef}

theorem Passed.nil : memory.Passed [] ref :=
  ⟨nofun, nofun, .nil⟩

theorem Passed.not_mem (hpassed : memory.Passed path ref) (hacyclic : memory.Acyclic) :
    ref ∉ path :=
  fun hmem => hacyclic ref (hpassed.reaches ref hmem)

theorem Passed.cons_new (hpassed : memory.Passed path ref) (hnew : ref ∉ path)
    (hcontains : memory.Contains ref held) : memory.Passed (ref :: path) held where
  reaches := by
    simp only [List.forall_mem_cons]
    exact ⟨.single hcontains, fun above habove => (hpassed.reaches above habove).tail hcontains⟩
  lt_size := by
    simp only [List.forall_mem_cons]
    exact ⟨hcontains.lt_size, hpassed.lt_size⟩
  nodup := List.nodup_cons.mpr ⟨hnew, hpassed.nodup⟩

theorem Passed.cons (hpassed : memory.Passed path ref) (hacyclic : memory.Acyclic)
    (hcontains : memory.Contains ref held) : memory.Passed (ref :: path) held :=
  hpassed.cons_new (hpassed.not_mem hacyclic) hcontains

theorem Passed.length_le (hpassed : memory.Passed path ref) :
    path.length ≤ memory.arrays.size := by
  have hsubset : path ⊆ (List.range memory.arrays.size).map ArrayRef.mk := by
    intro above habove
    exact List.mem_map.mpr ⟨above.index, List.mem_range.mpr (hpassed.lt_size above habove), rfl⟩
  simpa using (List.subperm_of_subset hpassed.nodup hsubset).length_le

/-! ## Texts -/

theorem isSome_elementsText? {elements : List Unfolded}
    (helements : ∀ u ∈ elements, u.text?.isSome) : (Unfolded.elementsText? elements).isSome := by
  induction elements with
  | nil => rfl
  | cons first rest ih =>
      obtain ⟨hfirst, hrest⟩ := List.forall_mem_cons.mp helements
      cases rest with
      | nil => exact hfirst
      | cons second rest =>
          obtain ⟨text, htext⟩ := Option.isSome_iff_exists.mp hfirst
          obtain ⟨texts, htexts⟩ := Option.isSome_iff_exists.mp (ih hrest)
          simp [Unfolded.elementsText?, htext, htexts]

theorem isSome_text?_unfoldWith {array : ArrayRef → Unfolded}
    (harray : ∀ ref, value.Refers ref → (array ref).text?.isSome) :
    (value.unfoldWith memory array).text?.isSome := by
  induction value with
  | array ref => exact harray ref .array
  | returned value ih => exact ih fun ref hrefers => harray ref (.returned hrefers)
  | _ => rfl

theorem isSome_text?_array {array : ArrayRef → Unfolded} {values : List Value}
    (hvalues : ∀ value ∈ values, ∀ ref, value.Refers ref → (array ref).text?.isSome) :
    (Unfolded.array (values.map (·.unfoldWith memory array))).text?.isSome := by
  have helements : ∀ u ∈ values.map (·.unfoldWith memory array), u.text?.isSome := by
    simp only [List.forall_mem_map]
    exact fun value hvalue => isSome_text?_unfoldWith (hvalues value hvalue)
  obtain ⟨text, htext⟩ := Option.isSome_iff_exists.mp (isSome_elementsText? helements)
  simp [Unfolded.text?, htext]

theorem Passed.isSome_text?_unfoldArray {depth : Nat} (hpassed : memory.Passed path ref)
    (hacyclic : memory.Acyclic) (hdepth : memory.arrays.size < path.length + depth) :
    (memory.unfoldArray depth path ref).text?.isSome := by
  induction depth generalizing path ref with
  | zero => exact absurd hpassed.length_le (Nat.not_le.mpr hdepth)
  | succ depth ih =>
      rw [unfoldArray, if_neg (hpassed.not_mem hacyclic)]
      refine isSome_text?_array fun value hvalue held hrefers => ?_
      have hcontains : memory.Contains ref held :=
        ⟨value, Array.mem_toList_iff.mp hvalue, hrefers⟩
      exact ih (hpassed.cons hacyclic hcontains) (by rw [List.length_cons]; omega)

/-- Without cycles every value has a text. -/
theorem Acyclic.isSome_text? (hacyclic : memory.Acyclic) (value : Value) :
    (memory.text? value).isSome :=
  isSome_text?_unfoldWith fun _ _ =>
    Passed.nil.isSome_text?_unfoldArray hacyclic (by rw [List.length_nil]; omega)

/-! ## Equality -/

theorem isSome_equalWith {arrays : ArrayRef → ArrayRef → Option Bool} {a b : Value}
    (harrays : ∀ left right, a.Refers left → b.Refers right → (arrays left right).isSome) :
    (a.equalWith arrays b).isSome := by
  induction a generalizing b with
  | array left =>
      cases b with
      | array right => exact harrays left right .array .array
      | _ => rfl
  | returned a ih =>
      cases b with
      | returned b =>
          exact ih fun left right hleft hright =>
            harrays left right (.returned hleft) (.returned hright)
      | _ => rfl
  | _ =>
      cases b with
      | _ => rfl

theorem isSome_allEqualWith {equal : Value → Value → Option Bool} {as bs : List Value}
    (hequal : ∀ a ∈ as, ∀ b ∈ bs, (equal a b).isSome) :
    (Value.allEqualWith equal as bs).isSome := by
  fun_induction Value.allEqualWith equal as bs with
  | case1 => rfl
  | case2 a as b bs ih =>
      obtain ⟨same, hsame⟩ :=
        Option.isSome_iff_exists.mp (hequal a List.mem_cons_self b List.mem_cons_self)
      have hrest := ih fun a ha b hb =>
        hequal a (List.mem_cons_of_mem _ ha) b (List.mem_cons_of_mem _ hb)
      cases same with
      | true => simpa [hsame] using hrest
      | false => simp [hsame]
  | case3 => rfl

theorem Passed.isSome_equalArrays? {depth : Nat} (hpassed : memory.Passed path ref)
    (hacyclic : memory.Acyclic) (hdepth : memory.arrays.size < path.length + depth)
    (other : ArrayRef) : (memory.equalArrays? depth ref other).isSome := by
  -- The second array goes down with the first, so the path of the first is enough.
  induction depth generalizing path ref other with
  | zero => exact absurd hpassed.length_le (Nat.not_le.mpr hdepth)
  | succ depth ih =>
      unfold equalArrays?
      dsimp only
      split_ifs
      · rfl
      · refine isSome_allEqualWith fun a ha b hb => isSome_equalWith fun held held' hrefers _ => ?_
        have hcontains : memory.Contains ref held := ⟨a, Array.mem_toList_iff.mp ha, hrefers⟩
        exact ih (hpassed.cons hacyclic hcontains) (by rw [List.length_cons]; omega) held'
      · rfl

/-- Without cycles any two values can be compared. -/
theorem Acyclic.isSome_equal? (hacyclic : memory.Acyclic) (a b : Value) :
    (memory.equal? a b).isSome := by
  have hdepth : memory.arrays.size < 0 + (memory.arrays.size * memory.arrays.size + 1) := by
    have hsquare := Nat.le_mul_self memory.arrays.size
    omega
  exact isSome_equalWith fun _ right _ _ => Passed.nil.isSome_equalArrays? hacyclic hdepth right

end Memory

end Monkey
