import Mathlib.Data.List.TakeWhile
import Mathlib.Tactic.Common
import Monkey.Host.Console

/-! # Consoles that differ

Two consoles may hold the same lines in front of different input, and the same output behind
different output. As long as only the lines that they share are read, they deliver the same and
still differ in nothing else (`Console.Twin`).
-/

namespace Monkey.Host

/-- What two consoles may differ in: the input behind the lines that they share, and the output in
front of the one that they share. -/
structure Difference where
  rest : List UInt8
  rest' : List UInt8
  output : ByteArray
  output' : ByteArray

/-- The input ends where a line ends. -/
def WholeLines (input : List UInt8) : Prop :=
  ∀ byte ∈ input.getLast?, byte = 10

/-- What is left of the input when some lines of it have been read. -/
def LeftOf (rest input : List UInt8) : Prop :=
  ∃ front, input = front ++ rest ∧ (rest = [] ∨ WholeLines front)

/-- The segment is a line with its line feed, or the last line and without one. -/
def IsLine (segment rest : List UInt8) : Prop :=
  segment ≠ [] ∧ ∃ text, 10 ∉ text ∧ (segment = text ++ [10] ∨ segment = text ∧ rest = [])

section

variable {input middle rest front back : List UInt8}

theorem WholeLines.append (hfront : WholeLines front) (hback : WholeLines back) :
    WholeLines (front ++ back) := by
  intro byte hbyte
  rw [List.getLast?_append] at hbyte
  cases hlast : back.getLast? with
  | none =>
      rw [hlast] at hbyte
      exact hfront byte hbyte
  | some last =>
      rw [hlast] at hbyte
      exact hback byte (hlast ▸ hbyte)

theorem WholeLines.of_isSuffix (hinput : WholeLines input) (hrest : rest <:+ input) :
    WholeLines rest := by
  obtain ⟨front, rfl⟩ := hrest
  intro byte hbyte
  refine hinput byte ?_
  rw [List.getLast?_append, hbyte]
  rfl

theorem WholeLines.mem (hinput : WholeLines input) (hne : input ≠ []) : 10 ∈ input := by
  have hlast := hinput (input.getLast hne) (List.getLast?_eq_some_getLast hne)
  exact hlast ▸ List.getLast_mem hne

namespace LeftOf

theorem refl (input : List UInt8) : LeftOf input input :=
  ⟨[], rfl, .inr nofun⟩

theorem trans (hrest : LeftOf rest middle) (hmiddle : LeftOf middle input) : LeftOf rest input := by
  obtain ⟨back, rfl, hback⟩ := hrest
  obtain ⟨front, rfl, hfront⟩ := hmiddle
  refine ⟨front ++ back, (List.append_assoc ..).symm, ?_⟩
  rcases hback with hnil | hback
  · exact .inl hnil
  · rcases hfront with hnil | hfront
    · exact .inl (List.append_eq_nil_iff.mp hnil).2
    · exact .inr (hfront.append hback)

theorem length_le (hrest : LeftOf rest input) : rest.length ≤ input.length := by
  obtain ⟨front, rfl, -⟩ := hrest
  simp

end LeftOf

end

namespace Console

/-- The consoles differ only where they may, and neither is ever closed. -/
structure Twin (δ : Difference) (console console' : Console) : Prop where
  capacity : console.capacity = none
  capacity' : console'.capacity = none
  input : ∃ shared, console.input = shared ++ δ.rest ∧ console'.input = shared ++ δ.rest' ∧
    (δ.rest = [] ∧ δ.rest' = [] ∨ δ.rest ≠ [] ∧ WholeLines shared)
  output : ∃ written, console.output = δ.output ++ written ∧ console'.output = δ.output' ++ written

variable {δ : Difference} {console console' : Console}

/-! ## Writing -/

/-- The console after a text has been written to it in full. -/
def append (console : Console) (text : String) : Console :=
  { console with output := console.output ++ text.toUTF8 }

@[simp]
theorem append_empty (console : Console) : console.append "" = console := by
  simp [append]

theorem append_append (console : Console) (text text' : String) :
    (console.append text).append text' = console.append (text ++ text') := by
  simp only [append, String.toUTF8_eq_toByteArray, String.toByteArray_append,
    ByteArray.append_assoc]

theorem write_eq (hcapacity : console.capacity = none) (text : String) :
    console.write text = (.ok (), console.append text) := by
  have hroom : console.room text.toUTF8.size = text.toUTF8.size := by
    rw [room, hcapacity]
  unfold write
  simp only [hroom, Nat.lt_irrefl, if_false, ByteArray.extract_zero_size]
  rfl

theorem Twin.write (htwin : Twin δ console console') (text : String) :
    (console'.write text).1 = (console.write text).1 ∧
      Twin δ (console.write text).2 (console'.write text).2 := by
  rw [write_eq htwin.capacity, write_eq htwin.capacity']
  refine ⟨rfl, htwin.capacity, htwin.capacity', htwin.input, ?_⟩
  obtain ⟨written, houtput, houtput'⟩ := htwin.output
  refine ⟨written ++ text.toUTF8, ?_, ?_⟩
  · rw [append, houtput, ByteArray.append_assoc]
  · rw [append, houtput', ByteArray.append_assoc]

/-! ## Reading -/

/-- What is left of the input when a line has been read. -/
def afterLine (input : List UInt8) : List UInt8 :=
  (input.dropWhile (· ≠ 10)).tail

theorem readLine_snd (console : Console) :
    console.readLine.2 = { console with input := afterLine console.input } := by
  obtain ⟨input, output, capacity⟩ := console
  cases input with
  | nil => rfl
  | cons byte input => rfl

theorem eq_of_readLine {result : Except Failure (Option String)} {after : Console}
    (hread : console.readLine = (result, after)) :
    after = { console with input := afterLine console.input } := by
  rw [← readLine_snd, hread]

/-- Reading does not look at the output. -/
theorem readLine_append (console : Console) (text : String) :
    (console.append text).readLine = (console.readLine.1, console.readLine.2.append text) := by
  obtain ⟨input, output, capacity⟩ := console
  cases input with
  | nil => rfl
  | cons byte input => rfl

theorem readLine_fst_congr (hnil : console'.input = [] ↔ console.input = [])
    (hline : console'.input.takeWhile (· ≠ 10) = console.input.takeWhile (· ≠ 10)) :
    console'.readLine.1 = console.readLine.1 := by
  unfold readLine
  simp only [List.isEmpty_iff, hnil, hline]
  split
  · rfl
  · rfl

/-- A read takes one line. -/
theorem exists_isLine {input : List UInt8} (hne : input ≠ []) :
    ∃ segment, input = segment ++ afterLine input ∧ IsLine segment (afterLine input) := by
  have hsplit := List.takeWhile_append_dropWhile (p := (· ≠ 10)) (l := input)
  have htext : 10 ∉ input.takeWhile (· ≠ 10) := by
    intro hmem
    simpa using List.mem_takeWhile_imp hmem
  rw [afterLine]
  cases hdrop : input.dropWhile (· ≠ 10) with
  | nil =>
      rw [hdrop, List.append_nil] at hsplit
      exact ⟨input, (List.append_nil _).symm, hne, input, hsplit ▸ htext, .inr ⟨rfl, rfl⟩⟩
  | cons byte rest =>
      have hbyte : byte = 10 := by
        have hhead := List.head?_dropWhile_not (fun byte : UInt8 => decide (byte ≠ 10)) input
        rw [hdrop] at hhead
        simpa using hhead
      subst hbyte
      refine ⟨input.takeWhile (· ≠ 10) ++ [10], ?_, by simp, _, htext, .inl rfl⟩
      rw [List.append_assoc, List.singleton_append, List.tail_cons, ← hdrop, hsplit]

theorem leftOf_readLine (console : Console) : LeftOf console.readLine.2.input console.input := by
  rw [readLine_snd]
  by_cases hne : console.input = []
  · rw [hne]
    exact .refl []
  · obtain ⟨segment, hinput, -, text, -, rfl | ⟨-, hrest⟩⟩ := exists_isLine hne
    · exact ⟨_, hinput, .inr (by simp [WholeLines])⟩
    · exact ⟨_, hinput, .inl hrest⟩

/-- Reading takes something from input that is not at its end. -/
theorem length_afterLine_lt {input : List UInt8} (hne : input ≠ []) :
    (afterLine input).length < input.length := by
  obtain ⟨segment, hinput, hsegment, -⟩ := exists_isLine hne
  have hlength := congrArg List.length hinput
  rw [List.length_append] at hlength
  have hpos := List.length_pos_iff.mpr hsegment
  omega

/-- A line that ends is the same whatever follows. -/
theorem append_of_mem {shared : List UInt8} (hmem : 10 ∈ shared) (rest : List UInt8) :
    (shared ++ rest).takeWhile (· ≠ 10) = shared.takeWhile (· ≠ 10) ∧
      afterLine (shared ++ rest) = afterLine shared ++ rest := by
  have hdrop : shared.dropWhile (· ≠ 10) ≠ [] := by
    rw [Ne, List.dropWhile_eq_nil_iff]
    exact fun hall => absurd (hall 10 hmem) (by simp)
  have htake : (shared.takeWhile (· ≠ 10)).length ≠ shared.length := by
    intro hlength
    have hself := (List.takeWhile_prefix (l := shared) (· ≠ 10)).eq_of_length hlength
    exact hdrop (List.dropWhile_eq_nil_iff.mpr (List.takeWhile_eq_self_iff.mp hself))
  constructor
  · rw [List.takeWhile_append, if_neg htake]
  · rw [afterLine, List.dropWhile_append, if_neg (by rwa [List.isEmpty_iff]),
      List.tail_append_of_ne_nil hdrop, afterLine]

/-- Two consoles deliver the same line, unless the first has read what they do not share. -/
theorem Twin.readLine (htwin : Twin δ console console')
    (hintact : δ.rest.length ≤ console.readLine.2.input.length) :
    console'.readLine.1 = console.readLine.1 ∧
      Twin δ console.readLine.2 console'.readLine.2 := by
  obtain ⟨shared, hinput, hinput', hends⟩ := htwin.input
  rw [readLine_snd] at hintact
  rw [readLine_snd, readLine_snd]
  rcases hends with ⟨hrest, hrest'⟩ | ⟨hrest, hshared⟩
  · have hsame : console'.input = console.input := by rw [hinput, hinput', hrest, hrest']
    refine ⟨readLine_fst_congr (by rw [hsame]) (by rw [hsame]), htwin.capacity, htwin.capacity',
      ⟨afterLine console.input, ?_, ?_, .inl ⟨hrest, hrest'⟩⟩, htwin.output⟩
    · rw [hrest, List.append_nil]
    · rw [hrest', List.append_nil, hsame]
  · have hne : shared ≠ [] := by
      rintro rfl
      rw [List.nil_append] at hinput
      rw [hinput] at hintact
      exact absurd (length_afterLine_lt hrest) (Nat.not_lt.mpr hintact)
    have hmem := hshared.mem hne
    obtain ⟨hline, hafter⟩ := append_of_mem hmem δ.rest
    obtain ⟨hline', hafter'⟩ := append_of_mem hmem δ.rest'
    refine ⟨readLine_fst_congr (by simp [hinput, hinput', hne]) ?_, htwin.capacity,
      htwin.capacity', ⟨afterLine shared, ?_, ?_, .inr ⟨hrest, ?_⟩⟩, htwin.output⟩
    · rw [hinput, hinput', hline, hline']
    · rw [hinput, hafter]
    · rw [hinput', hafter']
    · obtain ⟨segment, hsegment, -⟩ := exists_isLine hne
      exact hshared.of_isSuffix ⟨segment, hsegment.symm⟩

end Console

end Monkey.Host
