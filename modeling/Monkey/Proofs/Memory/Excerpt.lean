import Monkey.Proofs.Memory.Acyclic

/-! # Excerpts of texts

A value is written piece by piece. What is written down to some depth is an excerpt, and an array
that contains itself has excerpts only, one the beginning of the next and ever longer. What is
written of a value is all of it exactly if the value has a text (`Memory.text?_eq_complete?`).
-/

namespace Monkey

/-- The texts that are written one after the other, and whether nothing is left out behind them. -/
structure Excerpt where
  texts : List String
  whole : Bool

namespace Excerpt

/-- Nothing is left out. -/
def all (texts : List String) : Excerpt := ⟨texts, true⟩

/-- Everything is left out. -/
def cut : Excerpt := ⟨[], false⟩

/-- The second stands behind the first unless that leaves something out. -/
instance : Append Excerpt where
  append first second :=
    if first.whole then ⟨first.texts ++ second.texts, second.whole⟩ else first

/-- What is written as one text. -/
def text (excerpt : Excerpt) : String :=
  String.join excerpt.texts

/-- The text if nothing is left out. -/
def complete? (excerpt : Excerpt) : Option String :=
  if excerpt.whole then some excerpt.text else none

/-- The elements of an array with commas between them. -/
def elements (element : Value → Excerpt) : List Value → Excerpt
  | [] => .all []
  | [last] => element last
  | first :: rest => element first ++ (.all [", "] ++ elements element rest)

variable {first first' second second' excerpt : Excerpt}

theorem append_of_whole (hwhole : first.whole = true) (second : Excerpt) :
    first ++ second = ⟨first.texts ++ second.texts, second.whole⟩ :=
  if_pos hwhole

theorem append_of_cut (hcut : first.whole = false) (second : Excerpt) : first ++ second = first :=
  if_neg (by simp [hcut])

@[simp]
theorem whole_all (texts : List String) : (all texts).whole = true := rfl

@[simp]
theorem whole_append : (first ++ second).whole = (first.whole && second.whole) := by
  cases hfirst : first.whole with
  | true => rw [append_of_whole hfirst, Bool.true_and]
  | false => rw [append_of_cut hfirst, hfirst, Bool.false_and]

theorem complete?_append : (first ++ second).complete? =
    first.complete?.bind fun text => second.complete?.map (text ++ ·) := by
  cases hfirst : first.whole with
  | true =>
      rw [append_of_whole hfirst, complete?, complete?, complete?, if_pos hfirst]
      cases hsecond : second.whole with
      | true => simp [text]
      | false => simp
  | false =>
      rw [append_of_cut hfirst, complete?, hfirst]
      rfl

theorem complete?_all (text : String) : (all [text]).complete? = some text := by
  simp [complete?, Excerpt.text, all, String.join_cons]

/-! ## Beginnings -/

/-- The first is what the second starts with, and all of it if nothing is left out. -/
structure Begins (first second : Excerpt) : Prop where
  texts : first.texts <+: second.texts
  eq : first.whole = true → second = first

theorem Begins.refl (excerpt : Excerpt) : Begins excerpt excerpt :=
  ⟨List.prefix_refl _, fun _ => rfl⟩

theorem cut_begins (excerpt : Excerpt) : Begins cut excerpt :=
  ⟨List.nil_prefix, nofun⟩

theorem prefix_append (first second : Excerpt) : first.texts <+: (first ++ second).texts := by
  cases hfirst : first.whole with
  | true =>
      rw [append_of_whole hfirst]
      exact List.prefix_append _ _
  | false => simp [append_of_cut hfirst]

theorem Begins.append (hfirst : Begins first first') (hsecond : Begins second second') :
    Begins (first ++ second) (first' ++ second') := by
  cases hwhole : first.whole with
  | true =>
      rw [hfirst.eq hwhole, append_of_whole hwhole, append_of_whole hwhole]
      refine ⟨(List.prefix_append_right_inj _).mpr hsecond.texts, fun hwhole' => ?_⟩
      rw [hsecond.eq hwhole']
  | false =>
      rw [append_of_cut hwhole]
      refine ⟨hfirst.texts.trans (prefix_append _ _), fun hwhole' => ?_⟩
      cases hwhole'.symm.trans hwhole

theorem Begins.complete? {text : String} (hbegins : Begins first second)
    (htext : first.complete? = some text) : second.complete? = some text := by
  rw [Excerpt.complete?] at htext
  split at htext
  next hwhole => rwa [hbegins.eq hwhole, Excerpt.complete?, if_pos hwhole]
  next => cases htext

/-! ## Sizes -/

/-- How many bytes are written. -/
def size (excerpt : Excerpt) : Nat :=
  excerpt.text.utf8ByteSize

theorem size_append_of_whole (hwhole : first.whole = true) (second : Excerpt) :
    (first ++ second).size = first.size + second.size := by
  rw [append_of_whole hwhole, size, text, String.join_append, String.utf8ByteSize_append]
  rfl

theorem size_le_append (first second : Excerpt) : first.size ≤ (first ++ second).size := by
  cases hwhole : first.whole with
  | true =>
      rw [size_append_of_whole hwhole]
      exact Nat.le_add_right _ _
  | false => simp [append_of_cut hwhole]

/-- What is left out of a sequence is left out of its first part or of the rest. -/
theorem le_size_append {size : Nat} (hfirst : first.whole = false → size ≤ first.size)
    (hsecond : second.whole = false → size ≤ second.size)
    (hcut : (first ++ second).whole = false) : size ≤ (first ++ second).size := by
  cases hwhole : first.whole with
  | true =>
      rw [whole_append, hwhole, Bool.true_and] at hcut
      rw [size_append_of_whole hwhole]
      exact Nat.le_trans (hsecond hcut) (Nat.le_add_left _ _)
  | false => exact Nat.le_trans (hfirst hwhole) (size_le_append _ _)

/-- The excerpts go deeper and deeper: each is the beginning of the next, and what leaves something
out has as many bytes as levels. -/
structure Deepens (excerpts : Nat → Excerpt) : Prop where
  begins : ∀ {depth depth'}, depth ≤ depth' → (excerpts depth).Begins (excerpts depth')
  le_size : ∀ {depth}, (excerpts depth).whole = false → depth ≤ (excerpts depth).size

theorem Deepens.all (texts : List String) : Deepens fun _ => .all texts :=
  ⟨fun _ => .refl _, nofun⟩

theorem Deepens.append {excerpts excerpts' : Nat → Excerpt} (hfirst : Deepens excerpts)
    (hsecond : Deepens excerpts') : Deepens fun depth => excerpts depth ++ excerpts' depth :=
  ⟨fun hle => (hfirst.begins hle).append (hsecond.begins hle),
    le_size_append hfirst.le_size hsecond.le_size⟩

/-! ## Elements -/

section

variable {element element' : Value → Excerpt} {values : List Value}

theorem elements_cons_cons (element : Value → Excerpt) (first second : Value)
    (rest : List Value) : elements element (first :: second :: rest) =
      element first ++ (.all [", "] ++ elements element (second :: rest)) :=
  rfl

theorem Begins.elements (helement : ∀ value ∈ values, Begins (element value) (element' value)) :
    Begins (Excerpt.elements element values) (Excerpt.elements element' values) := by
  induction values with
  | nil => exact .refl _
  | cons first rest ih =>
      obtain ⟨hfirst, hrest⟩ := List.forall_mem_cons.mp helement
      cases rest with
      | nil => exact hfirst
      | cons second rest => exact hfirst.append ((Begins.refl _).append (ih hrest))

theorem le_size_elements {size : Nat}
    (helement : ∀ value, (element value).whole = false → size ≤ (element value).size) :
    (elements element values).whole = false → size ≤ (elements element values).size := by
  induction values with
  | nil => exact nofun
  | cons first rest ih =>
      cases rest with
      | nil => exact helement first
      | cons second rest => exact le_size_append (helement first) (le_size_append nofun ih)

theorem whole_elements :
    (elements element values).whole = true ↔ ∀ value ∈ values, (element value).whole = true := by
  induction values with
  | nil => simp [elements]
  | cons first rest ih =>
      cases rest with
      | nil => simp [elements]
      | cons second rest =>
          rw [elements_cons_cons, whole_append, whole_append, whole_all, Bool.true_and,
            Bool.and_eq_true, ih, List.forall_mem_cons (l := second :: rest)]

theorem complete?_elements {unfold : Value → Unfolded} {text : String}
    (helement : ∀ value text, (unfold value).text? = some text →
      (element value).complete? = some text)
    (htext : Unfolded.elementsText? (values.map unfold) = some text) :
    (elements element values).complete? = some text := by
  induction values generalizing text with
  | nil => exact htext
  | cons first rest ih =>
      cases rest with
      | nil => exact helement first text htext
      | cons second rest =>
          obtain ⟨front, hfirst, htext⟩ := Option.bind_eq_some_iff.mp htext
          obtain ⟨back, hrest, htext⟩ := Option.bind_eq_some_iff.mp htext
          cases htext
          rw [elements_cons_cons, complete?_append, complete?_append, complete?_all,
            helement first _ hfirst, ih hrest]
          simp [String.append_assoc]

end

end Excerpt

/-! ## Values -/

/-- What is written of a value, given what is written of arrays. -/
def Value.excerptWith (memory : Memory) (array : ArrayRef → Excerpt) : Value → Excerpt
  | .array ref => array ref
  | .returned value => value.excerptWith memory array
  | value => (memory.text? value).elim .cut fun text => .all [text]

namespace Memory

variable (memory : Memory)

/-- What is written of an array, at most the given number of levels deep. -/
def excerptArray : Nat → ArrayRef → Excerpt
  | 0, _ => .cut
  | depth + 1, ref =>
    .all ["["] ++ (.elements (·.excerptWith memory (excerptArray depth))
      (memory.elements ref).toList ++ .all ["]"])

/-- What is written of a value, at most the given number of levels deep. -/
def excerpt (depth : Nat) (value : Value) : Excerpt :=
  value.excerptWith memory (memory.excerptArray depth)

/-- What is written of a line that shows a value. -/
def excerptLine (depth : Nat) (value : Value) : Excerpt :=
  memory.excerpt depth value ++ .all ["\n"]

/-- What is written of values, a line for each. -/
def excerptLines (depth : Nat) : List Value → Excerpt
  | [] => .all []
  | value :: rest => memory.excerptLine depth value ++ excerptLines depth rest

end Memory

section

variable {memory : Memory} {depth depth' : Nat} {value : Value}

namespace Value

variable {array array' : ArrayRef → Excerpt}

theorem excerptWith_begins (harray : ∀ ref, (array ref).Begins (array' ref)) :
    (value.excerptWith memory array).Begins (value.excerptWith memory array') := by
  induction value with
  | array ref => exact harray ref
  | returned value ih => exact ih
  | _ => exact .refl _

theorem le_size_excerptWith {size : Nat}
    (harray : ∀ ref, (array ref).whole = false → size ≤ (array ref).size) :
    (value.excerptWith memory array).whole = false →
      size ≤ (value.excerptWith memory array).size := by
  induction value with
  | array ref => exact harray ref
  | returned value ih => exact ih
  | _ => exact nofun

theorem whole_excerptWith_of_refers {ref : ArrayRef} (hrefers : value.Refers ref)
    (hwhole : (value.excerptWith memory array).whole = true) : (array ref).whole = true := by
  induction hrefers with
  | array => exact hwhole
  | returned _ ih => exact ih hwhole

/-- A value has the text of what it is unfolded to. -/
theorem complete?_excerptWith {unfold : ArrayRef → Unfolded} {text : String}
    (harray : ∀ ref text, (unfold ref).text? = some text → (array ref).complete? = some text)
    (htext : (value.unfoldWith memory unfold).text? = some text) :
    (value.excerptWith memory array).complete? = some text := by
  induction value with
  | array ref => exact harray ref text htext
  | returned value ih => exact ih htext
  | _ =>
      cases htext
      exact Excerpt.complete?_all _

end Value

namespace Memory

theorem excerptArray_begins (hle : depth ≤ depth') (ref : ArrayRef) :
    (memory.excerptArray depth ref).Begins (memory.excerptArray depth' ref) := by
  induction depth generalizing depth' ref with
  | zero => exact Excerpt.cut_begins _
  | succ depth ih =>
      cases depth' with
      | zero => cases hle
      | succ depth' =>
          refine (Excerpt.Begins.refl _).append (.append (.elements fun value _ => ?_) (.refl _))
          exact Value.excerptWith_begins (ih (Nat.le_of_succ_le_succ hle))

/-- Every level begins with a bracket. -/
theorem le_size_excerptArray (ref : ArrayRef) :
    (memory.excerptArray depth ref).whole = false →
      depth ≤ (memory.excerptArray depth ref).size := by
  induction depth generalizing ref with
  | zero => exact fun _ => Nat.zero_le _
  | succ depth ih =>
      intro hcut
      rw [excerptArray, Excerpt.whole_append, Excerpt.whole_all, Bool.true_and] at hcut
      rw [excerptArray, Excerpt.size_append_of_whole rfl]
      have hbracket : (Excerpt.all ["["]).size = 1 := by decide +kernel
      have hrest := Excerpt.le_size_append (Excerpt.le_size_elements fun _ =>
        Value.le_size_excerptWith ih) (by nofun) hcut
      omega

theorem deepens_excerpt (value : Value) : Excerpt.Deepens (memory.excerpt · value) :=
  ⟨fun hle => Value.excerptWith_begins (excerptArray_begins hle),
    Value.le_size_excerptWith le_size_excerptArray⟩

theorem deepens_excerptLine (value : Value) : Excerpt.Deepens (memory.excerptLine · value) :=
  (deepens_excerpt value).append (.all _)

theorem deepens_excerptLines (values : List Value) :
    Excerpt.Deepens (memory.excerptLines · values) := by
  induction values with
  | nil => exact .all _
  | cons value rest ih => exact (deepens_excerptLine value).append ih

/-! ## Complete texts -/

theorem complete?_excerptArray {path : List ArrayRef} {ref : ArrayRef} {text : String}
    (htext : (memory.unfoldArray depth path ref).text? = some text) :
    (memory.excerptArray depth ref).complete? = some text := by
  induction depth generalizing path ref text with
  | zero => cases htext
  | succ depth ih =>
      rw [unfoldArray] at htext
      split at htext
      · cases htext
      · obtain ⟨contents, hcontents, htext⟩ := Option.bind_eq_some_iff.mp htext
        cases htext
        have helements : (Excerpt.elements (·.excerptWith memory (memory.excerptArray depth))
            (memory.elements ref).toList).complete? = some contents :=
          Excerpt.complete?_elements
            (fun _ _ => Value.complete?_excerptWith fun _ _ => ih) hcontents
        rw [excerptArray, Excerpt.complete?_append, Excerpt.complete?_append, helements,
          Excerpt.complete?_all, Excerpt.complete?_all]
        simp [String.append_assoc]

/-- An array that is written as a whole does not lie inside itself: what is inside it is written
with fewer levels. -/
theorem isSome_text?_of_whole {path : List ArrayRef} {ref : ArrayRef} {fuel : Nat}
    (hwhole : (memory.excerptArray depth ref).whole = true) (hpassed : memory.Passed path ref)
    (habove : ∀ above ∈ path, (memory.excerptArray depth above).whole = false)
    (hfuel : memory.arrays.size < path.length + fuel) :
    (memory.unfoldArray fuel path ref).text?.isSome := by
  induction depth generalizing path ref fuel with
  | zero => cases hwhole
  | succ depth ih =>
      have hstep {above : ArrayRef} (hcut : (memory.excerptArray (depth + 1) above).whole = false) :
          (memory.excerptArray depth above).whole = false := by
        rw [Bool.eq_false_iff] at hcut ⊢
        intro hless
        rw [(excerptArray_begins (Nat.le_succ depth) above).eq hless] at hcut
        exact hcut hless
      by_cases hless : (memory.excerptArray depth ref).whole = true
      · exact ih hless hpassed (fun above hmem => hstep (habove above hmem)) hfuel
      · have hnew : ref ∉ path := fun hmem => nomatch hwhole.symm.trans (habove ref hmem)
        cases fuel with
        | zero => exact absurd hpassed.length_le (Nat.not_le.mpr hfuel)
        | succ fuel =>
            have hcuts : ∀ above ∈ ref :: path, (memory.excerptArray depth above).whole = false :=
              List.forall_mem_cons.mpr
                ⟨by simpa using hless, fun above hmem => hstep (habove above hmem)⟩
            simp only [excerptArray, Excerpt.whole_append, Excerpt.whole_all, Bool.and_true,
              Bool.true_and, Excerpt.whole_elements] at hwhole
            rw [unfoldArray, if_neg hnew]
            refine isSome_text?_array fun value hvalue held hrefers => ?_
            have hcontains : memory.Contains ref held :=
              ⟨value, Array.mem_toList_iff.mp hvalue, hrefers⟩
            exact ih (Value.whole_excerptWith_of_refers hrefers (hwhole value hvalue))
              (hpassed.cons_new hnew hcontains) hcuts (by rw [List.length_cons]; omega)

/-- A value has a text exactly if it is written as a whole with as many levels as there are arrays,
and that is the text. -/
theorem text?_eq_complete? (hdepth : memory.arrays.size < depth) (value : Value) :
    memory.text? value = (memory.excerpt depth value).complete? := by
  cases htext : memory.text? value with
  | some text =>
      have hcomplete : (memory.excerpt (memory.arrays.size + 1) value).complete? = some text :=
        Value.complete?_excerptWith (fun _ _ => complete?_excerptArray) htext
      exact (((deepens_excerpt value).begins hdepth).complete? hcomplete).symm
  | none =>
      rw [Excerpt.complete?]
      split
      next hwhole =>
        have hsome : (memory.text? value).isSome := isSome_text?_unfoldWith fun ref hrefers =>
          isSome_text?_of_whole (Value.whole_excerptWith_of_refers hrefers hwhole) .nil nofun
            (by rw [List.length_nil]; omega)
        rw [htext] at hsome
        cases hsome
      next => rfl

/-- A value that has a text is shown by that text. -/
theorem complete?_excerptLine {text : String} (htext : memory.text? value = some text)
    (hdepth : memory.arrays.size < depth) :
    (memory.excerptLine depth value).complete? = some (text ++ "\n") := by
  rw [excerptLine, Excerpt.complete?_append, Excerpt.complete?_all, ← text?_eq_complete? hdepth,
    htext]
  rfl

end Memory

end

end Monkey
