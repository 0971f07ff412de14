import Mathlib.Data.List.DropRight
import Monkey.Proofs.Host.Console

/-! # Lines of the input

The input is cut after every line feed (`cutLines`). A read delivers the first line that is left, or
loses it if it is no text. So consoles that are read one after the other deliver every line once and
in order, and nothing behind the last line (`Pulled.readLine_fst`).
-/

namespace Monkey.Host

/-- The input, cut after each line feed. The last line may lack one. -/
def cutLines : List UInt8 → List (List UInt8)
  | [] => []
  | byte :: rest =>
    if byte = 10 then [byte] :: cutLines rest
    else
      match cutLines rest with
      | [] => [[byte]]
      | line :: lines => (byte :: line) :: lines

/-- What a line is delivered as: its text without the carriage returns and line feeds at its end. A
line that is no text is lost. -/
def deliver (line : List UInt8) : Except Failure (Option String) :=
  (decode line.toByteArray).map fun text =>
    some (String.ofList (Text.dropEndWhile (fun c => c = '\r' ∨ c = '\n') text.toList))

/-- What the input delivers when it is read for the given time, counted from zero. -/
def delivery (input : List UInt8) (time : Nat) : Except Failure (Option String) :=
  match (cutLines input)[time]? with
  | some line => deliver line
  | none => .ok none

section

variable {input line rest text : List UInt8}

/-! ## Cutting -/

theorem flatten_cutLines (input : List UInt8) : (cutLines input).flatten = input := by
  induction input with
  | nil => rfl
  | cons byte rest ih =>
      rw [cutLines]
      split
      · rw [List.flatten_cons, ih, List.singleton_append]
      · split
        next hlines =>
          rw [hlines] at ih
          simp [← ih]
        next hlines =>
          rw [hlines] at ih
          simp [← ih]

theorem cutLines_feed (htext : 10 ∉ text) (rest : List UInt8) :
    cutLines (text ++ 10 :: rest) = (text ++ [10]) :: cutLines rest := by
  induction text with
  | nil => simp [cutLines]
  | cons byte text ih =>
      obtain ⟨hbyte, htext⟩ := List.ne_and_not_mem_of_not_mem_cons htext
      rw [List.cons_append, cutLines, if_neg (Ne.symm hbyte), ih htext]
      rfl

theorem cutLines_text (hne : text ≠ []) (htext : 10 ∉ text) : cutLines text = [text] := by
  induction text with
  | nil => exact absurd rfl hne
  | cons byte text ih =>
      obtain ⟨hbyte, htext⟩ := List.ne_and_not_mem_of_not_mem_cons htext
      rw [cutLines, if_neg (Ne.symm hbyte)]
      cases text with
      | nil => rfl
      | cons next text => rw [ih (List.cons_ne_nil _ _) htext]

theorem IsLine.cutLines_append (hline : IsLine line rest) :
    cutLines (line ++ rest) = line :: cutLines rest := by
  obtain ⟨hne, text, htext, rfl | ⟨rfl, rfl⟩⟩ := hline
  · rw [List.append_assoc, List.singleton_append, cutLines_feed htext]
  · rw [List.append_nil, cutLines_text hne htext]
    rfl

/-- A read leaves all lines but the first. -/
theorem cutLines_afterLine (input : List UInt8) :
    cutLines (Console.afterLine input) = (cutLines input).tail := by
  by_cases hne : input = []
  · rw [hne]
    rfl
  · obtain ⟨line, hinput, hline⟩ := Console.exists_isLine hne
    have hcut := hline.cutLines_append
    rw [← hinput] at hcut
    rw [hcut, List.tail_cons]

/-- A line feed stands at the end of every line, with the exception of the last, and nowhere else in
it. -/
theorem isLine_of_cutLines {front back : List (List UInt8)}
    (hcut : cutLines input = front ++ line :: back) : IsLine line back.flatten := by
  induction front generalizing input with
  | nil =>
      have hne : input ≠ [] := by
        rintro rfl
        cases hcut
      obtain ⟨first, hinput, hfirst⟩ := Console.exists_isLine hne
      have hlines := hfirst.cutLines_append
      rw [← hinput, hcut, List.nil_append] at hlines
      obtain ⟨rfl, rfl⟩ := List.cons.inj hlines
      rwa [flatten_cutLines]
  | cons first front ih =>
      have hafter : cutLines (Console.afterLine input) = front ++ line :: back := by
        rw [cutLines_afterLine, hcut]
        rfl
      exact ih hafter

/-! ## Text -/

theorem decode_eq_ok_iff {bytes : ByteArray} {text : String} :
    decode bytes = .ok text ↔ text.toByteArray = bytes := by
  unfold decode String.fromUTF8?
  by_cases hvalid : bytes.IsValidUTF8
  · simp only [dif_pos hvalid, Except.ok.injEq]
    rw [← String.toByteArray_inj]
    exact eq_comm
  · simp only [dif_neg hvalid]
    constructor
    · exact nofun
    · rintro rfl
      exact absurd text.isValidUTF8 hvalid

theorem decode_eq_error {bytes : ByteArray} (hno : ∀ text, decode bytes ≠ .ok text) :
    decode bytes = .error .notUtf8 := by
  unfold decode at hno ⊢
  split
  next htext =>
    rw [htext] at hno
    exact absurd rfl (hno _)
  next => rfl

/-- Text that ends with a line feed is text without it. -/
theorem exists_text_of_feed {text : String}
    (htext : text.toByteArray = (line ++ [10]).toByteArray) :
    ∃ text' : String, text'.toByteArray = line.toByteArray := by
  have hsize : line.length < text.toByteArray.size := by
    rw [htext, List.size_toByteArray, List.length_append]
    exact Nat.lt_succ_self _
  have hbyte : text.getUTF8Byte ⟨line.length⟩ hsize = 10 := by
    simp only [String.getUTF8Byte, htext, List.getElem_toByteArray]
    exact List.getElem_concat_length rfl _
  -- A line feed is a character of its own wherever it stands.
  have hvalid : String.Pos.Raw.IsValid text ⟨line.length⟩ := by
    refine String.Pos.Raw.isValid_iff_isUTF8FirstByte.mpr (.inr ⟨hsize, ?_⟩)
    rw [hbyte]
    decide
  have hfront := hvalid.isValidUTF8_extract_zero
  rw [htext, List.toByteArray_append,
    ByteArray.extract_append_eq_left List.size_toByteArray.symm] at hfront
  exact ⟨⟨_, hfront⟩, rfl⟩

theorem decode_feed (line : List UInt8) :
    decode (line ++ [10]).toByteArray = (decode line.toByteArray).map (· ++ "\n") := by
  cases hline : decode line.toByteArray with
  | ok text =>
      rw [decode_eq_ok_iff] at hline
      refine decode_eq_ok_iff.mpr ?_
      rw [String.toByteArray_append, hline, List.toByteArray_append]
      rfl
  | error failure =>
      have hno : ∀ text, decode line.toByteArray ≠ .ok text := by
        rw [hline]
        exact nofun
      obtain rfl : Failure.notUtf8 = failure :=
        Except.error.inj ((decode_eq_error hno).symm.trans hline)
      refine decode_eq_error fun text htext => ?_
      obtain ⟨text', htext'⟩ := exists_text_of_feed (decode_eq_ok_iff.mp htext)
      exact hno text' (decode_eq_ok_iff.mpr htext')

theorem feed_not_mem_of_decode {text : String} (hline : 10 ∉ line)
    (htext : decode line.toByteArray = .ok text) : '\n' ∉ text.toList := by
  intro hmem
  rw [decode_eq_ok_iff, ← String.ofList_toList (s := text), String.toByteArray_ofList,
    List.utf8Encode, List.toByteArray_inj] at htext
  rw [← htext] at hline
  exact hline (List.mem_flatMap.mpr ⟨'\n', hmem, by decide⟩)

/-! ## Delivery -/

theorem dropEndWhile_congr {p q : Char → Bool} {cs : List Char} (hpq : ∀ c ∈ cs, p c = q c) :
    Text.dropEndWhile p cs = Text.dropEndWhile q cs := by
  have hdrop : ∀ cs : List Char, (∀ c ∈ cs, p c = q c) → cs.dropWhile p = cs.dropWhile q := by
    intro cs
    induction cs with
    | nil => exact fun _ => rfl
    | cons c cs ih =>
        intro hall
        obtain ⟨hc, hcs⟩ := List.forall_mem_cons.mp hall
        rw [List.dropWhile_cons, List.dropWhile_cons, hc, ih hcs]
  rw [Text.dropEndWhile, Text.dropEndWhile, hdrop]
  simpa using hpq

/-- The line feed at the end of a line makes no difference to what is delivered. -/
theorem deliver_feed (line : List UInt8) : deliver (line ++ [10]) = deliver line := by
  rw [deliver, deliver, decode_feed]
  cases decode line.toByteArray with
  | error failure => rfl
  | ok text =>
      have htext : (text ++ "\n").toList = text.toList ++ ['\n'] := by simp
      change Except.ok (some (String.ofList (List.rdropWhile _ (text ++ "\n").toList))) = _
      rw [htext, List.rdropWhile_concat_pos _ _ _ (by decide)]
      rfl

/-- Where there is no line feed, only carriage returns are dropped. -/
theorem deliver_text (htext : 10 ∉ text) :
    deliver text = (decode text.toByteArray).map fun text =>
      some (String.ofList (Text.dropEndWhile (· = '\r') text.toList)) := by
  rw [deliver]
  cases hdecode : decode text.toByteArray with
  | error failure => rfl
  | ok chars =>
      have hfeed := feed_not_mem_of_decode htext hdecode
      change Except.ok (some (String.ofList _)) = Except.ok (some (String.ofList _))
      rw [dropEndWhile_congr]
      intro c hc
      have hne : c ≠ '\n' := fun heq => hfeed (heq ▸ hc)
      simp [hne]

namespace Console

variable {console : Console}

theorem feed_not_mem_takeWhile (input : List UInt8) : 10 ∉ input.takeWhile (· ≠ 10) := by
  intro hmem
  simpa using List.mem_takeWhile_imp hmem

theorem readLine_fst (hne : console.input ≠ []) :
    console.readLine.1 = deliver (console.input.takeWhile (· ≠ 10)) := by
  rw [deliver_text (feed_not_mem_takeWhile _), readLine, if_neg (by simpa using hne)]

/-- A read delivers the first line. -/
theorem readLine_fst_of_isLine (hinput : console.input = line ++ rest) (hline : IsLine line rest) :
    console.readLine.1 = deliver line := by
  obtain ⟨hne, text, htext, hends⟩ := hline
  have hall : ∀ byte ∈ text, decide (byte ≠ 10) = true :=
    fun byte hbyte => decide_eq_true fun heq => htext (heq ▸ hbyte)
  rw [readLine_fst (hinput ▸ List.append_ne_nil_of_left_ne_nil hne rest), hinput]
  rcases hends with rfl | ⟨rfl, rfl⟩
  · rw [List.append_assoc, List.takeWhile_append_of_pos hall, deliver_feed]
    simp
  · rw [List.append_nil, List.takeWhile_eq_self_iff.mpr hall]

theorem readLine_fst_eq_delivery (console : Console) :
    console.readLine.1 = delivery console.input 0 := by
  by_cases hne : console.input = []
  · rw [readLine, hne]
    rfl
  · obtain ⟨line, hinput, hline⟩ := exists_isLine hne
    have hcut := hline.cutLines_append
    rw [← hinput] at hcut
    rw [readLine_fst_of_isLine hinput hline, delivery, hcut]
    rfl

/-- No line that is delivered contains a line feed. -/
theorem feed_not_mem_of_readLine {line : String}
    (hread : console.readLine.1 = .ok (some line)) : '\n' ∉ line.toList := by
  by_cases hne : console.input = []
  · rw [readLine, hne] at hread
    cases hread
  · have htext := feed_not_mem_takeWhile console.input
    rw [readLine_fst hne, deliver_text htext] at hread
    cases hdecode : decode (console.input.takeWhile (· ≠ 10)).toByteArray with
    | error failure =>
        rw [hdecode] at hread
        cases hread
    | ok text =>
        rw [hdecode] at hread
        obtain rfl := Option.some.inj (Except.ok.inj hread)
        rw [String.toList_ofList]
        intro hmem
        exact feed_not_mem_of_decode htext hdecode ((List.rdropWhile_prefix _ _).subset hmem)

end Console

/-! ## Reads one after the other -/

/-- The consoles are read one after the other, and nothing else uses the input in between: the first
of them holds the input, and each leaves the next one what follows its first line. -/
inductive Pulled : List UInt8 → List Console → List UInt8 → Prop
  | nil {bytes} : Pulled bytes [] bytes
  | cons {console reads left} :
    Pulled (Console.afterLine console.input) reads left →
    Pulled console.input (console :: reads) left

namespace Pulled

variable {middle : List UInt8} {reads reads' : List Console}

theorem single (console : Console) :
    Pulled console.input [console] (Console.afterLine console.input) :=
  .cons .nil

theorem append (hreads : Pulled input reads middle) (hreads' : Pulled middle reads' rest) :
    Pulled input (reads ++ reads') rest := by
  induction hreads with
  | nil => exact hreads'
  | cons _ ih => exact .cons (ih hreads')

/-- What is left are all lines but those that have been read. -/
theorem rest_eq (hreads : Pulled input reads rest) :
    rest = ((cutLines input).drop reads.length).flatten := by
  induction hreads with
  | nil => exact (flatten_cutLines _).symm
  | cons _ ih =>
      rw [ih, cutLines_afterLine, List.drop_tail, List.length_cons]

/-- Every read delivers the line whose turn it is. -/
theorem readLine_fst {console : Console} {time : Nat} (hreads : Pulled input reads rest)
    (htime : reads[time]? = some console) : console.readLine.1 = delivery input time := by
  induction hreads generalizing time with
  | nil => cases htime
  | @cons first reads rest _ ih =>
      cases time with
      | zero =>
          rw [← Option.some.inj htime]
          exact first.readLine_fst_eq_delivery
      | succ time =>
          rw [ih htime, delivery, delivery, cutLines_afterLine, List.getElem?_tail]

end Pulled

end

end Monkey.Host
