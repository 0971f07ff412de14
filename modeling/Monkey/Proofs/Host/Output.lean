import Monkey.Proofs.Builtin

/-! # Printing lines

What is printed comes down to texts that are written one after the other, up to the first that is
refused (`Host.Console.writeAll`). That is the same as writing them as one text. A console that has
refused a text is shut: it refuses every further text but the empty one.
-/

namespace Monkey

namespace Host.Console

/-! ## Texts one after the other -/

/-- Writes texts one after the other, up to the first that does not fit. -/
def writeAll (console : Console) : List String → Except Failure Unit × Console
  | [] => (.ok (), console)
  | text :: rest =>
    match console.write text with
    | (.ok (), console) => console.writeAll rest
    | (.error failure, console) => (.error failure, console)

/-- Writes lines one after the other, up to the first that does not fit. -/
def print (console : Console) (lines : List String) : Except Failure Unit × Console :=
  console.writeAll (lines.map (· ++ "\n"))

theorem write_of_fits {console : Console} {text : String}
    (hfits : console.room text.toUTF8.size = text.toUTF8.size) :
    console.write text = (.ok (), { console with output := console.output ++ text.toUTF8 }) := by
  unfold write
  simp only [hfits, Nat.lt_irrefl, if_false, ByteArray.extract_zero_size]

theorem write_empty (console : Console) : console.write "" = (.ok (), console) := by
  have hroom : console.room "".toUTF8.size = 0 := by
    change console.room 0 = 0
    rw [room]
    split
    · rfl
    · exact Nat.zero_min _
  rw [write, hroom]
  simp

theorem room_le (console : Console) (size : Nat) : console.room size ≤ size := by
  unfold room
  split
  · exact Nat.le_refl _
  · exact Nat.min_le_left _ _

/-- What fits of two texts is what fits of the first, or all of it and what then fits of the
second. -/
theorem room_append (console : Console) (bytes bytes' : ByteArray) :
    console.room (bytes ++ bytes').size =
      if console.room bytes.size < bytes.size then console.room bytes.size
      else bytes.size +
        { console with output := console.output ++ bytes }.room bytes'.size := by
  unfold room
  cases hcapacity : console.capacity with
  | none => simp
  | some capacity =>
      simp only [ByteArray.size_append]
      split
      · omega
      · omega

/-- The second of two texts is written if the first has been. -/
theorem write_append (console : Console) (text text' : String) :
    console.write (text ++ text') =
      match console.write text with
      | (.ok (), console) => console.write text'
      | (.error failure, console) => (.error failure, console) := by
  have hbytes : (text ++ text').toUTF8 = text.toUTF8 ++ text'.toUTF8 := by simp
  have hroom := console.room_append text.toUTF8 text'.toUTF8
  have hle := console.room_le text.toUTF8.size
  by_cases hfits : console.room text.toUTF8.size < text.toUTF8.size
  · rw [if_pos hfits] at hroom
    have hsize : console.room text.toUTF8.size < (text.toUTF8 ++ text'.toUTF8).size := by
      rw [ByteArray.size_append]
      omega
    have hextract : (text.toUTF8 ++ text'.toUTF8).extract 0 (console.room text.toUTF8.size) =
        text.toUTF8.extract 0 (console.room text.toUTF8.size) := by
      rw [ByteArray.extract_append, Nat.sub_eq_zero_of_le hle]
      simp
    simp only [write, hbytes, hroom, hextract, if_pos hfits, if_pos hsize]
  · rw [if_neg hfits, ByteArray.size_append] at hroom
    have hwrite : console.write text =
        (.ok (), { console with output := console.output ++ text.toUTF8 }) :=
      write_of_fits (by omega)
    have hextract (size : Nat) : (text.toUTF8 ++ text'.toUTF8).extract 0 (text.toUTF8.size + size) =
        text.toUTF8 ++ text'.toUTF8.extract 0 size := by
      have hfirst : text.toUTF8.extract 0 (text.toUTF8.size + size) = text.toUTF8 := by
        refine ByteArray.ext ?_
        rw [ByteArray.data_extract]
        exact Array.extract_eq_self_of_le (Nat.le_add_right _ _)
      rw [ByteArray.extract_append, hfirst]
      simp
    rw [hwrite]
    simp only [write, hbytes, hroom, hextract, ByteArray.size_append, Nat.add_lt_add_iff_left,
      ByteArray.append_assoc]

theorem writeAll_eq_write (console : Console) (texts : List String) :
    console.writeAll texts = console.write (String.join texts) := by
  induction texts generalizing console with
  | nil => exact console.write_empty.symm
  | cons text rest ih =>
      rw [writeAll, String.join_cons, write_append]
      simp only [ih]

theorem writeAll_append (console : Console) (texts texts' : List String) :
    console.writeAll (texts ++ texts') =
      match console.writeAll texts with
      | (.ok (), console) => console.writeAll texts'
      | (.error failure, console) => (.error failure, console) := by
  rw [writeAll_eq_write, writeAll_eq_write, String.join_append, write_append]
  rcases console.write (String.join texts) with ⟨failure | _, middle⟩
  · rfl
  · exact (middle.writeAll_eq_write texts').symm

theorem print_eq_write (console : Console) (lines : List String) :
    console.print lines = console.write (String.join (lines.map (· ++ "\n"))) :=
  console.writeAll_eq_write _

theorem input_print (console : Console) (lines : List String) :
    (console.print lines).2.input = console.input := by
  rw [print_eq_write]
  rfl

/-- Lines behind others are written if those were. -/
theorem print_append (console : Console) (lines lines' : List String) :
    console.print (lines ++ lines') =
      match console.print lines with
      | (.ok (), console) => console.print lines'
      | (.error failure, console) => (.error failure, console) := by
  rw [print, List.map_append, writeAll_append]
  rfl

/-! ## Consoles that are shut -/

/-- The console refuses all further texts. -/
def Shut (console : Console) : Prop :=
  ∀ text : String, text ≠ "" → (console.write text).1 = .error .outputClosed

theorem size_pos_of_ne {text : String} (hne : text ≠ "") : 0 < text.toUTF8.size := by
  rw [Nat.pos_iff_ne_zero]
  intro hsize
  exact hne (String.utf8ByteSize_eq_zero_iff.mp hsize)

theorem shut_of_full {console : Console} {capacity : Nat}
    (hcapacity : console.capacity = some capacity) (hfull : capacity ≤ console.output.size) :
    console.Shut := by
  intro text hne
  have hpos := size_pos_of_ne hne
  have hroom : console.room text.toUTF8.size < text.toUTF8.size := by
    rw [room, hcapacity]
    dsimp only
    omega
  rw [write]
  exact if_pos hroom

/-- A text is refused where the output comes to its capacity, and that is where it stays. -/
theorem shut_of_write {console console' : Console} {text : String} {failure : Failure}
    (hwrite : console.write text = (.error failure, console')) :
    failure = .outputClosed ∧ console'.Shut := by
  rw [write] at hwrite
  obtain ⟨hresult, rfl⟩ := Prod.mk.inj hwrite
  split at hresult
  next hroom =>
    cases hresult
    refine ⟨rfl, ?_⟩
    cases hcapacity : console.capacity with
    | none => simp [room, hcapacity] at hroom
    | some capacity =>
        refine shut_of_full rfl ?_
        rw [room, hcapacity] at hroom ⊢
        simp only [ByteArray.size_append, ByteArray.size_extract] at hroom ⊢
        omega
  next => cases hresult

/-- Only a bounded output refuses anything. -/
theorem bounded_of_writeAll {console console' : Console} {texts : List String} {failure : Failure}
    (hwrite : console.writeAll texts = (.error failure, console')) :
    ∃ capacity, console.capacity = some capacity := by
  cases hcapacity : console.capacity with
  | none =>
      have hroom : console.room (String.join texts).toUTF8.size =
          (String.join texts).toUTF8.size := by
        rw [room, hcapacity]
      rw [writeAll_eq_write, write_of_fits hroom] at hwrite
      cases hwrite
  | some capacity => exact ⟨capacity, rfl⟩

theorem shut_of_writeAll {console console' : Console} {texts : List String} {failure : Failure}
    (hwrite : console.writeAll texts = (.error failure, console')) :
    failure = .outputClosed ∧ console'.Shut :=
  shut_of_write (console.writeAll_eq_write texts ▸ hwrite)

theorem Shut.writeAll {console : Console} {text : String} (hshut : console.Shut) (hne : text ≠ "")
    (rest : List String) : (console.writeAll (text :: rest)).1 = .error .outputClosed := by
  have hjoin : String.join (text :: rest) ≠ "" := by
    rw [String.join_cons]
    simp [hne]
  rw [writeAll_eq_write]
  exact hshut _ hjoin

end Host.Console

/-! ## Computations that print -/

/-- The computation prints the lines and does nothing else. -/
def Prints (computation : Printing Unit) (lines : List String) : Prop :=
  ∀ world : World, computation.run.run world =
    some ((world.console.print lines).1, { world with console := (world.console.print lines).2 })

theorem prints_writeLine (line : String) : Prints (Printing.writeLine line) [line] := by
  intro world
  change some ((world.console.write (line ++ "\n")).1,
    { world with console := (world.console.write (line ++ "\n")).2 }) = _
  rw [Host.Console.print_eq_write, List.map_singleton, String.join_cons, String.join_nil,
    String.append_empty]

theorem prints_pure : Prints (pure ()) [] :=
  fun _ => rfl

theorem Prints.bind {first : Printing Unit} {next : Unit → Printing Unit}
    {lines lines' : List String} (hfirst : Prints first lines) (hnext : Prints (next ()) lines') :
    Prints (first >>= next) (lines ++ lines') := by
  intro world
  rw [run_bind, hfirst, Host.Console.print_append]
  rcases world.console.print lines with ⟨_ | _, console⟩
  · rfl
  · exact hnext { world with console }

/-- The lines that are printed for a text that is rejected. -/
def listing (diagnostics : List Diagnostic) : List String :=
  "Parser errors:" :: diagnostics.map fun d => "\t" ++ d.message

theorem prints_diagnostics (diagnostics : List Diagnostic) :
    Prints (Printing.diagnostics diagnostics) (listing diagnostics) := by
  have hlist : Prints (forIn diagnostics PUnit.unit fun d _ => do
      Printing.writeLine ("\t" ++ d.message)
      return ForInStep.yield PUnit.unit) (diagnostics.map fun d => "\t" ++ d.message) := by
    induction diagnostics with
    | nil => exact prints_pure
    | cons d rest ih =>
        rw [List.forIn_cons, bind_assoc]
        exact (prints_writeLine ("\t" ++ d.message)).bind ih
  have hall : Prints (Printing.diagnostics diagnostics)
      (["Parser errors:"] ++ ((diagnostics.map fun d => "\t" ++ d.message) ++ [])) :=
    (prints_writeLine "Parser errors:").bind (hlist.bind prints_pure)
  rwa [List.append_nil] at hall

end Monkey
