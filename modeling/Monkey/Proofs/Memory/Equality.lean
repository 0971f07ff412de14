import Mathlib
import Monkey.Proofs.Memory.Acyclic

/-! # Laws of equality

Comparing two arrays ends at once when they are the same array, even if it holds a number that is
not equal to itself. Equality is nevertheless symmetric and transitive at every depth, and fails to
be reflexive only for such a number and for pending returns of it. On values that hold none of these
numbers the shortcut cannot be told from comparing contents: without cycles the answer depends only
on the unfolded contents of the two values (`Memory.Acyclic.equal?_lawful`).
-/

namespace Monkey

/-- Comparing doubles is symmetric and transitive. -/
instance partialEquivBEqFloat : PartialEquivBEq Float where
  symm hxy := by
    rw [Float.beq_iff_ne_nan_and_eq] at *
    tauto
  trans hxy hyz := by
    rw [Float.beq_iff_ne_nan_and_eq] at *
    grind

theorem beq_self_iff_isNaN {x : Float} : (x == x) = true ↔ x.isNaN = false := by
  rw [Float.beq_self_iff, Float.isNaN_eq_decide_eq_nan, decide_eq_false_iff_not]

namespace Value

variable {arrays : ArrayRef → ArrayRef → Option Bool} {a b c : Value}

/-- The value is a number that is not equal to itself, or a pending return of one. -/
def IsNaN : Value → Prop
  | float x => x.isNaN = true
  | returned value => value.IsNaN
  | _ => False

/-! ## Symmetry -/

theorem equalWith_comm (harrays : ∀ left right, arrays left right = arrays right left)
    (a b : Value) : a.equalWith arrays b = b.equalWith arrays a := by
  induction a generalizing b with
  | array left =>
      cases b with
      | array right => exact harrays left right
      | _ => rfl
  | returned a ih =>
      cases b with
      | returned b => exact ih b
      | _ => rfl
  | _ =>
      cases b with
      | null => rfl
      | _ => first | rfl | exact congrArg some BEq.comm

theorem allEqualWith_comm {equal : Value → Value → Option Bool}
    (hequal : ∀ a b, equal a b = equal b a) (as bs : List Value) :
    allEqualWith equal as bs = allEqualWith equal bs as := by
  induction as generalizing bs with
  | nil =>
      cases bs with
      | nil => rfl
      | cons => rfl
  | cons a as ih =>
      cases bs with
      | nil => rfl
      | cons b bs => rw [allEqualWith, allEqualWith, hequal a b, ih bs]

/-! ## Transitivity -/

theorem equalWith_trans
    (harrays : ∀ first middle last, arrays first middle = some true →
      arrays middle last = some true → arrays first last = some true)
    (hab : a.equalWith arrays b = some true) (hbc : b.equalWith arrays c = some true) :
    a.equalWith arrays c = some true := by
  induction a generalizing b c with
  | array first =>
      cases b with
      | array middle =>
          cases c with
          | array last => exact harrays first middle last hab hbc
          | _ => cases hbc
      | _ => cases hab
  | returned a ih =>
      cases b with
      | returned b =>
          cases c with
          | returned c => exact ih hab hbc
          | _ => cases hbc
      | _ => cases hab
  | null =>
      cases b with
      | null => exact hbc
      | _ => cases hab
  | _ =>
      cases b with
      | null => cases hab
      | _ =>
          cases c with
          | null => cases hbc
          | _ =>
              first
              | cases hab
              | cases hbc
              | exact congrArg some (BEq.trans (Option.some.inj hab) (Option.some.inj hbc))

/-- The first elements are equal, and so are all others. -/
theorem allEqualWith_cons {equal : Value → Value → Option Bool} {as bs : List Value} :
    allEqualWith equal (a :: as) (b :: bs) = some true ↔
      equal a b = some true ∧ allEqualWith equal as bs = some true := by
  rw [allEqualWith]
  cases equal a b with
  | none => simp
  | some same =>
      cases same with
      | true => simp
      | false => simp

theorem allEqualWith_trans {equal : Value → Value → Option Bool} {as bs cs : List Value}
    (hequal : ∀ a b c, equal a b = some true → equal b c = some true → equal a c = some true)
    (hab : allEqualWith equal as bs = some true) (hbc : allEqualWith equal bs cs = some true) :
    allEqualWith equal as cs = some true := by
  induction as generalizing bs cs with
  | nil =>
      cases bs with
      | nil => exact hbc
      | cons => cases hab
  | cons a as ih =>
      cases bs with
      | nil => cases hab
      | cons b bs =>
          cases cs with
          | nil => cases hbc
          | cons c cs =>
              rw [allEqualWith_cons] at *
              exact ⟨hequal a b c hab.1 hbc.1, ih hab.2 hbc.2⟩

/-! ## Reflexivity -/

theorem equalWith_self (harrays : ∀ ref, arrays ref ref = some true) :
    a.equalWith arrays a = some true ↔ ¬ a.IsNaN := by
  induction a with
  | float x =>
      change some (x == x) = some true ↔ ¬ x.isNaN = true
      rw [Option.some_inj, beq_self_iff_isNaN, Bool.not_eq_true]
  | array ref => exact iff_of_true (harrays ref) id
  | returned value ih => exact ih
  | null => exact iff_of_true rfl id
  | _ => exact iff_of_true (congrArg some BEq.rfl) id

end Value

/-! ## Unfolded contents -/

/-- What a value holds, with the elements of arrays in place of their identities. -/
inductive Contents
  | integer (value : Int64)
  | float (value : Float)
  | boolean (value : Bool)
  | string (value : String)
  | array (elements : List Contents)
  | null
  | function (ref : FunctionRef)
  | builtin (name : String)
  | returned (value : Contents)
  | error (message : String)

namespace Contents

mutual

/-- Compares contents through and through. -/
def same : Contents → Contents → Bool
  | integer a, integer b => a == b
  | float a, float b => a == b
  | boolean a, boolean b => a == b
  | string a, string b => a == b
  | array as, array bs => sameAll as bs
  | null, null => true
  | function a, function b => a == b
  | builtin a, builtin b => a == b
  | returned a, returned b => a.same b
  | error a, error b => a == b
  | _, _ => false

/-- Compares lists of contents element by element. -/
def sameAll : List Contents → List Contents → Bool
  | [], [] => true
  | a :: as, b :: bs => a.same b && sameAll as bs
  | _, _ => false

end

mutual

/-- No number inside the contents is a NaN. -/
def NaNFree : Contents → Prop
  | float x => x.isNaN = false
  | array elements => AllNaNFree elements
  | returned value => value.NaNFree
  | _ => True

/-- No number inside any of the contents is a NaN. -/
def AllNaNFree : List Contents → Prop
  | [] => True
  | first :: rest => first.NaNFree ∧ AllNaNFree rest

end

mutual

theorem same_self : ∀ contents : Contents, contents.NaNFree → contents.same contents = true
  | float _, hfree => beq_self_iff_isNaN.mpr hfree
  | array elements, hfree => sameAll_self elements hfree
  | returned value, hfree => same_self value hfree
  | integer _, _ | boolean _, _ | string _, _ | function _, _ | builtin _, _ | error _, _ =>
      BEq.rfl
  | null, _ => rfl

theorem sameAll_self : ∀ elements : List Contents, AllNaNFree elements →
    sameAll elements elements = true
  | [], _ => rfl
  | first :: rest, hfree => by
      rw [sameAll, same_self first hfree.1, sameAll_self rest hfree.2, Bool.and_self]

end

end Contents

/-- Puts the elements of arrays in place of their identities. -/
def Value.contentsWith (elements : ArrayRef → List Contents) : Value → Contents
  | .integer n => .integer n
  | .float x => .float x
  | .boolean b => .boolean b
  | .string s => .string s
  | .array ref => .array (elements ref)
  | .null => .null
  | .function ref => .function ref
  | .builtin b => .builtin b.name
  | .returned value => .returned (value.contentsWith elements)
  | .error message => .error message

theorem Value.contentsWith_congr {elements elements' : ArrayRef → List Contents} {value : Value}
    (helements : ∀ ref, value.Refers ref → elements ref = elements' ref) :
    value.contentsWith elements = value.contentsWith elements' := by
  induction value with
  | array ref => exact congrArg Contents.array (helements ref .array)
  | returned value ih =>
      exact congrArg Contents.returned (ih fun ref hrefers => helements ref (.returned hrefers))
  | _ => rfl

/-- Comparing two values is comparing their contents, if that is so for the arrays they refer to. -/
theorem Value.equalWith_eq_same {arrays : ArrayRef → ArrayRef → Option Bool}
    {elements : ArrayRef → List Contents} {a b : Value}
    (harrays : ∀ left right, a.Refers left → b.Refers right →
      arrays left right = some (Contents.sameAll (elements left) (elements right))) :
    a.equalWith arrays b = some ((a.contentsWith elements).same (b.contentsWith elements)) := by
  induction a generalizing b with
  | array left =>
      cases b with
      | array right => exact harrays left right .array .array
      | _ => rfl
  | returned a ih =>
      cases b with
      | returned b =>
          exact ih fun left right hleft hright =>
            harrays left right (.returned hleft) (.returned hright)
      | _ => rfl
  | _ =>
      cases b with
      | _ => rfl

theorem Value.allEqualWith_eq_sameAll {equal : Value → Value → Option Bool}
    {contents : Value → Contents} {as bs : List Value}
    (hequal : ∀ a ∈ as, ∀ b ∈ bs, equal a b = some ((contents a).same (contents b))) :
    Value.allEqualWith equal as bs =
      some (Contents.sameAll (as.map contents) (bs.map contents)) := by
  induction as generalizing bs with
  | nil =>
      cases bs with
      | nil => rfl
      | cons => rfl
  | cons a as ih =>
      cases bs with
      | nil => rfl
      | cons b bs =>
          have hrest := ih fun a ha b hb =>
            hequal a (List.mem_cons_of_mem _ ha) b (List.mem_cons_of_mem _ hb)
          rw [allEqualWith, hequal a List.mem_cons_self b List.mem_cons_self, hrest, List.map_cons,
            List.map_cons, Contents.sameAll]
          cases (contents a).same (contents b) with
          | true => rfl
          | false => rfl

/-- Lists of different lengths do not have the same contents. -/
theorem Contents.length_eq_of_sameAll {as bs : List Contents} (hsame : sameAll as bs = true) :
    as.length = bs.length := by
  induction as generalizing bs with
  | nil =>
      cases bs with
      | nil => rfl
      | cons => cases hsame
  | cons a as ih =>
      cases bs with
      | nil => cases hsame
      | cons b bs =>
          rw [sameAll, Bool.and_eq_true] at hsame
          exact congrArg Nat.succ (ih hsame.2)

theorem Contents.NaNFree.of_mem {elements : List Contents} {contents : Contents}
    (hfree : AllNaNFree elements) (hmem : contents ∈ elements) : contents.NaNFree := by
  induction elements with
  | nil => cases hmem
  | cons first rest ih =>
      rcases List.mem_cons.mp hmem with rfl | hmem
      · exact hfree.1
      · exact ih hfree.2 hmem

namespace Memory

variable {memory : Memory} {path : List ArrayRef} {ref left right : ArrayRef} {depth depth' : Nat}

/-- The contents of the elements of an array, at most the given number of levels deep. -/
def elementsContents (memory : Memory) : Nat → ArrayRef → List Contents
  | 0, _ => []
  | depth + 1, ref =>
    (memory.elements ref).toList.map (·.contentsWith (memory.elementsContents depth))

/-- The contents of a value. Without cycles, no array is further down than there are arrays. -/
def contents (memory : Memory) (value : Value) : Contents :=
  value.contentsWith (memory.elementsContents (memory.arrays.size + 1))

/-- Below an array no more levels are needed than there are arrays that were not passed yet. -/
theorem Passed.elementsContents_eq (hpassed : memory.Passed path ref) (hacyclic : memory.Acyclic)
    (hdepth : memory.arrays.size < path.length + depth)
    (hdepth' : memory.arrays.size < path.length + depth') :
    memory.elementsContents depth ref = memory.elementsContents depth' ref := by
  induction depth generalizing path ref depth' with
  | zero => exact absurd hpassed.length_le (Nat.not_le.mpr hdepth)
  | succ depth ih =>
      cases depth' with
      | zero => exact absurd hpassed.length_le (Nat.not_le.mpr hdepth')
      | succ depth' =>
          refine List.map_congr_left fun value hvalue => ?_
          refine Value.contentsWith_congr fun held hrefers => ?_
          have hcontains : memory.Contains ref held :=
            ⟨value, Array.mem_toList_iff.mp hvalue, hrefers⟩
          exact ih (hpassed.cons hacyclic hcontains) (by rw [List.length_cons]; omega)
            (by rw [List.length_cons]; omega)

/-- Without cycles, an array contains what its elements contain. -/
theorem Acyclic.contents_array (hacyclic : memory.Acyclic) (ref : ArrayRef) :
    memory.contents (.array ref) =
      .array ((memory.elements ref).toList.map memory.contents) := by
  refine congrArg Contents.array (List.map_congr_left fun value hvalue => ?_)
  refine Value.contentsWith_congr fun held hrefers => ?_
  have hcontains : memory.Contains ref held := ⟨value, Array.mem_toList_iff.mp hvalue, hrefers⟩
  have hpassed : memory.Passed [ref] held := Passed.nil.cons hacyclic hcontains
  exact hpassed.elementsContents_eq hacyclic (by rw [List.length_singleton]; omega)
    (by rw [List.length_singleton]; omega)

/-! ## The laws -/

theorem equalArrays?_comm : memory.equalArrays? depth left right =
    memory.equalArrays? depth right left := by
  induction depth generalizing left right with
  | zero => rfl
  | succ depth ih =>
      unfold equalArrays?
      dsimp only
      simp only [eq_comm (a := left), eq_comm (a := (memory.elements left).size)]
      rw [Value.allEqualWith_comm (Value.equalWith_comm fun _ _ => ih)]

/-- Arrays are equal because they are the same or because their elements are equal. -/
theorem equalArrays?_eq_some_true : memory.equalArrays? (depth + 1) left right = some true ↔
    left = right ∨ (memory.elements left).size = (memory.elements right).size ∧
      Value.allEqualWith (Value.equalWith (memory.equalArrays? depth))
        (memory.elements left).toList (memory.elements right).toList = some true := by
  rw [equalArrays?]
  dsimp only
  split_ifs with hsame hsize
  · exact iff_of_true rfl (.inl hsame)
  · simp only [hsame, hsize, false_or, true_and]
  · simp only [hsame, hsize, false_or, false_and, Option.some_inj, Bool.false_eq_true]

/-- Equality of arrays is transitive, whichever of the two ways decided at each depth. -/
theorem equalArrays?_trans {first middle last : ArrayRef}
    (hleft : memory.equalArrays? depth first middle = some true)
    (hright : memory.equalArrays? depth middle last = some true) :
    memory.equalArrays? depth first last = some true := by
  induction depth generalizing first middle last with
  | zero => cases hleft
  | succ depth ih =>
      -- Where one pair is the same array twice, the other pair already says what is to be shown.
      rcases equalArrays?_eq_some_true.mp hleft with rfl | ⟨hsize, hall⟩
      · exact hright
      rcases equalArrays?_eq_some_true.mp hright with rfl | ⟨hsize', hall'⟩
      · exact hleft
      refine equalArrays?_eq_some_true.mpr (.inr ⟨hsize.trans hsize', ?_⟩)
      refine Value.allEqualWith_trans ?_ hall hall'
      exact fun _ _ _ => Value.equalWith_trans fun _ _ _ => ih

theorem naNFree_of_refers {value : Value} (hrefers : value.Refers ref)
    (hfree : (memory.contents value).NaNFree) : (memory.contents (.array ref)).NaNFree := by
  induction hrefers with
  | array => exact hfree
  | returned _ ih => exact ih hfree

/-- On arrays without NaN, the shortcut for the same array agrees with comparing contents. -/
theorem Passed.equalArrays?_eq_same (hpassed : memory.Passed path left)
    (hacyclic : memory.Acyclic) (hdepth : memory.arrays.size < path.length + depth)
    (hfree : (memory.contents (.array left)).NaNFree) :
    memory.equalArrays? depth left right =
      some ((memory.contents (.array left)).same (memory.contents (.array right))) := by
  induction depth generalizing path left right with
  | zero => exact absurd hpassed.length_le (Nat.not_le.mpr hdepth)
  | succ depth ih =>
      rw [equalArrays?]
      by_cases hidentical : left = right
      · subst hidentical
        rw [if_pos rfl, Contents.same_self _ hfree]
      rw [if_neg hidentical]
      dsimp only
      rw [hacyclic.contents_array] at hfree
      rw [hacyclic.contents_array, hacyclic.contents_array, Contents.same]
      split_ifs with hsize
      · refine Value.allEqualWith_eq_sameAll fun a ha b _ => ?_
        refine Value.equalWith_eq_same fun held held' hheld _ => ?_
        have hcontains : memory.Contains left held := ⟨a, Array.mem_toList_iff.mp ha, hheld⟩
        have hfree : (memory.contents a).NaNFree :=
          Contents.NaNFree.of_mem hfree (List.mem_map_of_mem ha)
        exact ih (hpassed.cons hacyclic hcontains) (by rw [List.length_cons]; omega)
          (naNFree_of_refers hheld hfree)
      · refine congrArg some (Bool.eq_false_iff.mpr fun hsame => hsize ?_).symm
        simpa using Contents.length_eq_of_sameAll hsame

/-- Without cycles, equality answers for any two values; it is symmetric, transitive and, apart from
a NaN and pending returns of one, reflexive. Of values without any NaN inside it compares the
contents alone. -/
theorem Acyclic.equal?_lawful (hacyclic : memory.Acyclic) :
    (∀ a b, ∃ same, memory.equal? a b = some same ∧ memory.equal? b a = some same) ∧
      (∀ a b c, memory.equal? a b = some true → memory.equal? b c = some true →
        memory.equal? a c = some true) ∧
      (∀ a, memory.equal? a a = some true ↔ ¬ a.IsNaN) ∧
      (∀ ref, memory.contents (.array ref) =
        .array ((memory.elements ref).toList.map memory.contents)) ∧
      ∀ a b, (memory.contents a).NaNFree → (memory.contents b).NaNFree →
        memory.equal? a b = some ((memory.contents a).same (memory.contents b)) := by
  refine ⟨fun a b => ?symmetric, fun a b c => ?transitive, fun a => ?reflexive,
    hacyclic.contents_array, fun a b hfree _ => ?contents⟩
  case symmetric =>
    obtain ⟨same, hsame⟩ := Option.isSome_iff_exists.mp (hacyclic.isSome_equal? a b)
    refine ⟨same, hsame, ?_⟩
    rw [← hsame]
    exact Value.equalWith_comm (fun _ _ => equalArrays?_comm) b a
  case transitive => exact Value.equalWith_trans fun _ _ _ => equalArrays?_trans
  case reflexive =>
    exact Value.equalWith_self fun ref => equalArrays?_eq_some_true.mpr (.inl rfl)
  case contents =>
    refine Value.equalWith_eq_same fun left right hleft _ => ?_
    have hsquare := Nat.le_mul_self memory.arrays.size
    exact Passed.nil.equalArrays?_eq_same hacyclic (by rw [List.length_nil]; omega)
      (naNFree_of_refers hleft hfree)

/-- Arrays that hold nothing but older ones are on no cycle. -/
theorem acyclic_of_lt (hlt : ∀ ref held, memory.Contains ref held → held.index < ref.index) :
    memory.Acyclic := by
  intro ref hcycle
  have hless {first last : ArrayRef} (hpath : Relation.TransGen memory.Contains first last) :
      last.index < first.index := by
    induction hpath with
    | single hedge => exact hlt _ _ hedge
    | tail _ hedge ih => exact (hlt _ _ hedge).trans ih
  exact Nat.lt_irrefl _ (hless hcycle)

/-- Three arrays that share one with a NaN, and two arrays of the two zeros, with an array around
each. -/
def nested : Memory where
  frames := #[]
  arrays := #[#[.float (0.0 / 0.0)], #[.array ⟨0⟩], #[.array ⟨0⟩], #[.array ⟨0⟩],
    #[.float 0.0], #[.float (-0.0)], #[.array ⟨4⟩], #[.array ⟨5⟩]]
  functions := #[]

theorem acyclic_nested : nested.Acyclic := by
  refine acyclic_of_lt fun ref held hcontains => ?_
  obtain ⟨index⟩ := ref
  have hlt : index < 8 := hcontains.lt_size
  obtain ⟨value, hvalue, hrefers⟩ := hcontains
  interval_cases index
  all_goals
    cases List.mem_singleton.mp (Array.mem_toList_iff.mpr hvalue)
    cases hrefers
  all_goals decide

theorem equal?_nested :
    nested.equal? (.array ⟨1⟩) (.array ⟨3⟩) = some true ∧
      nested.equal? (.returned (.float (0.0 / 0.0))) (.returned (.float (0.0 / 0.0))) ≠ some true ∧
      nested.equal? (.array ⟨6⟩) (.array ⟨7⟩) =
        some ((nested.contents (.array ⟨6⟩)).same (nested.contents (.array ⟨7⟩))) := by
  obtain ⟨-, htransitive, hreflexive, -, hcontents⟩ := acyclic_nested.equal?_lawful
  refine ⟨htransitive _ (.array ⟨2⟩) _ (by decide +kernel) (by decide +kernel), ?_,
    hcontents _ _ ?_ ?_⟩
  · exact fun hsame => (hreflexive _).mp hsame (show (0.0 / 0.0 : Float).isNaN = true by
      decide +kernel)
  · exact ⟨⟨show (0.0 : Float).isNaN = false by decide +kernel, trivial⟩, trivial⟩
  · exact ⟨⟨show (-0.0 : Float).isNaN = false by decide +kernel, trivial⟩, trivial⟩

end Memory

end Monkey
