import Monkey.Proofs.Token.Layout

/-! # The tokens of two texts in one

A semicolon is part of no longer lexeme, so the tokens of a text are the same when a semicolon and
more text follow, except that a string without its second quote would go on. A text on later lines
has the same tokens, further down. So the tokens of one text, a semicolon, and the tokens of another
are the tokens of the two texts with a semicolon and a line feed between them
(`tokenize_semicolon`).
-/

namespace Monkey

/-! ## Moving down -/

/-- The same column, the given number of lines further down. -/
def Position.down (lines : Nat) (position : Position) : Position :=
  { position with line := position.line + lines }

theorem Position.next_down (lines : Nat) (position : Position) (c : Char) :
    (position.down lines).next c = (position.next c).down lines := by
  unfold next down
  split
  · simp [Nat.add_right_comm]
  · rfl

theorem Position.after_down (lines : Nat) (position : Position) (cs : List Char) :
    (position.down lines).after cs = (position.after cs).down lines := by
  induction cs generalizing position with
  | nil => rfl
  | cons c cs ih => rw [after_cons, after_cons, next_down, ih]

/-- A line feed behind a text leads to the first column, as many lines down as there are now. -/
theorem Position.behind_lineFeed (cs : List Char) :
    Position.behind (cs ++ ['\n']) = Position.start.down (1 + cs.count '\n') := by
  simp [behind, start, down, Nat.add_comm, Nat.add_left_comm]

namespace Token

/-- The same token, the given number of lines further down. -/
def down (lines : Nat) (t : Token) : Token :=
  { t with position := t.position.down lines }

@[simp]
theorem kind_down (lines : Nat) (t : Token) : (t.down lines).kind = t.kind := rfl

@[simp]
theorem literal_down (lines : Nat) (t : Token) : (t.down lines).literal = t.literal := rfl

@[simp]
theorem down_zero : Token.down 0 = id := rfl

/-- A string that has no second quote, and so is all the rest of its text. -/
def Unterminated (t : Token) : Prop :=
  t.kind = .illegal ∧ t.literal.toList.head? = some '"'

instance (t : Token) : Decidable t.Unterminated :=
  inferInstanceAs (Decidable (_ ∧ _))

end Token

/-- The same tokens, the given number of lines further down. -/
def Tokens.down (lines : Nat) (tokens : Tokens) : Tokens :=
  ⟨tokens.front.map (·.down lines), tokens.last.down lines, tokens.last_eof⟩

namespace Token

/-! ## Lexemes before a semicolon -/

namespace Lexeme

section

variable {p : Char → Bool} {c : Char}

theorem takeWhile_append_cons (hc : p c = false) (cs ds : List Char) :
    (cs ++ c :: ds).takeWhile p = cs.takeWhile p := by
  induction cs with
  | nil => simp [hc]
  | cons d cs ih => simp only [List.cons_append, List.takeWhile_cons, ih]

theorem dropWhile_append_cons (hc : p c = false) (cs ds : List Char) :
    (cs ++ c :: ds).dropWhile p = cs.dropWhile p ++ c :: ds := by
  induction cs with
  | nil => simp [hc]
  | cons d cs ih =>
      simp only [List.cons_append, List.dropWhile_cons, ih]
      split
      · rfl
      · rfl

end

theorem number_append (cs ds : List Char) : number (cs ++ ';' :: ds) = number cs := by
  have hsemicolon : Char.isDigit ';' = false := by decide
  unfold number
  rw [takeWhile_append_cons hsemicolon, dropWhile_append_cons hsemicolon]
  cases cs.dropWhile Char.isDigit with
  | nil => rfl
  | cons d more =>
      by_cases hpoint : d = '.'
      · subst hpoint
        simp only [List.cons_append, takeWhile_append_cons hsemicolon]
      · simp [hpoint]

theorem word_append (c : Char) (cs ds : List Char) : word c (cs ++ ';' :: ds) = word c cs := by
  unfold word
  rw [takeWhile_append_cons (by decide)]

theorem quoted_append {cs : List Char} (hquote : cs.dropWhile (· ≠ '"') ≠ []) (ds : List Char) :
    quoted (cs ++ ds) = quoted cs := by
  obtain ⟨quote, rest, hrest⟩ := List.exists_cons_of_ne_nil hquote
  have hsplit := List.takeWhile_append_dropWhile (p := (· ≠ '"')) (l := cs)
  have hstop : ∀ d ∈ (quote :: (rest ++ ds)).head?, decide (d ≠ '"') = false := by
    intro d hd
    have hhead := List.head?_dropWhile_not (· ≠ '"') cs
    rw [hrest] at hhead
    cases hd
    simpa using hhead
  have hall : ∀ d ∈ cs.takeWhile (· ≠ '"'), decide (d ≠ '"') = true :=
    fun d hd => List.mem_takeWhile_imp (p := (· ≠ '"')) hd
  have happend : cs ++ ds = cs.takeWhile (· ≠ '"') ++ quote :: (rest ++ ds) := by
    nth_rewrite 1 [← hsplit]
    rw [hrest, List.append_assoc, List.cons_append]
  unfold quoted
  rw [happend, Text.takeWhile_append_of_boundary hall hstop,
    Text.dropWhile_append_of_boundary hall hstop, hrest]

theorem kind_quoted_of_nil {cs : List Char} (hnil : cs.dropWhile (· ≠ '"') = []) :
    (quoted cs).kind = .illegal ∧ (quoted cs).text.head? = some '"' := by
  unfold quoted
  rw [hnil]
  exact ⟨rfl, rfl⟩

/-- A semicolon does not change the lexeme in front of it, unless that is an open string. -/
theorem atFront_append {c : Char} {cs : List Char}
    (hclosed : ¬ ((atFront c cs).kind = .illegal ∧ (atFront c cs).text.head? = some '"'))
    (ds : List Char) : atFront c (cs ++ ';' :: ds) = atFront c cs := by
  -- The second character of a lexeme of two is no semicolon.
  have hsecond {d : Char} (hd : d ≠ ';') (hcs : ∀ tail, cs = d :: tail → False) :
      ∀ tail, cs ++ ';' :: ds = d :: tail → False := by
    intro tail happend
    cases cs with
    | nil => exact hd (List.cons.inj happend).1.symm
    | cons d' cs => exact hcs cs (by rw [(List.cons.inj happend).1])
  fun_cases atFront c cs
  case case2 hcs => rw [atFront]; exact hsecond (by decide) hcs
  case case4 hcs => rw [atFront]; exact hsecond (by decide) hcs
  case case21 =>
    refine quoted_append (fun hnil => hclosed ?_) _
    exact kind_quoted_of_nil hnil
  case case22 hdigit _ _ _ _ =>
    rw [atFront, if_pos hdigit, ← List.cons_append, number_append]
    all_goals grind
  case case23 hdigit hletter _ _ _ _ =>
    rw [atFront, if_neg hdigit, if_pos hletter, word_append]
    all_goals grind
  case case24 hdigit hletter _ _ _ _ =>
    rw [atFront, if_neg hdigit, if_neg hletter]
    all_goals grind
  all_goals rfl

end Lexeme

/-! ## Readers -/

namespace Reader

variable {r : Reader}

/-- The same input, the given number of lines further down. -/
def down (lines : Nat) (r : Reader) : Reader :=
  { r with position := r.position.down lines }

theorem skipSpace_down (lines : Nat) (r : Reader) :
    (r.down lines).skipSpace = r.skipSpace.down lines := by
  simp [skipSpace, down, Position.after_down]

theorem consume_down (lines : Nat) (r : Reader) (x : Lexeme) (cs : List Char) :
    (r.down lines).consume x cs = (r.consume x cs).down lines := by
  simp [consume, down, Position.after_down]

/-- Nothing that is read depends on the line. -/
theorem tokens_down (lines : Nat) (r : Reader) : (r.down lines).tokens = r.tokens.down lines := by
  induction r using Reader.tokens.induct with
  | case1 r hnil =>
      have hnil' : (r.down lines).skipSpace.input = [] := hnil
      rw [tokens_of_nil hnil, tokens_of_nil hnil', skipSpace_down]
      rfl
  | case2 r c cs hcons x hlt ih =>
      have hcons' : (r.down lines).skipSpace.input = c :: cs := hcons
      rw [tokens_of_cons hcons, tokens_of_cons hcons', skipSpace_down, consume_down, ih]
      rfl

/-- The same reader, with a semicolon and more behind its input. -/
def extend (r : Reader) (ds : List Char) : Reader :=
  { r with input := r.input ++ ';' :: ds }

/-- The reader that has come to the semicolon. -/
def atSemicolon (r : Reader) (ds : List Char) : Reader :=
  { r with position := r.position.after r.input, input := ';' :: ds }

theorem skipSpace_extend (r : Reader) (ds : List Char) :
    (r.extend ds).skipSpace = r.skipSpace.extend ds := by
  have hspace : isSpace ';' = false := by decide
  simp only [skipSpace, extend, Lexeme.takeWhile_append_cons hspace,
    Lexeme.dropWhile_append_cons hspace]

theorem atSemicolon_skipSpace (r : Reader) (ds : List Char) :
    r.skipSpace.atSemicolon ds = r.atSemicolon ds := by
  simp only [skipSpace, atSemicolon, ← Position.after_append, List.takeWhile_append_dropWhile]

theorem consume_extend {x : Lexeme} {c : Char} {cs : List Char} (hx : x.Taken (c :: cs))
    (r : Reader) (ds : List Char) :
    (r.extend ds).consume x (cs ++ ';' :: ds) = (r.consume x cs).extend ds := by
  have hlength := hx.front.length_le
  rw [List.length_cons] at hlength
  simp only [consume, extend]
  rw [List.drop_append_of_le_length (by omega)]

theorem atSemicolon_consume {x : Lexeme} {c : Char} {cs : List Char} (hx : x.Taken (c :: cs))
    (hinput : r.input = c :: cs) (ds : List Char) :
    (r.consume x cs).atSemicolon ds = r.atSemicolon ds := by
  have htext := consume_input hx r
  rw [← hinput] at htext
  have hposition : (r.consume x cs).position.after (r.consume x cs).input =
      r.position.after r.input := by
    rw [← htext, Position.after_append]
    rfl
  unfold atSemicolon
  rw [hposition]
  rfl

theorem unterminated_toToken {x : Lexeme} (position : Position) (hkind : x.kind = .illegal)
    (hhead : x.text.head? = some '"') : (x.toToken position).Unterminated := by
  refine ⟨hkind, ?_⟩
  rw [Lexeme.toToken, Lexeme.literal, hkind, String.toList_ofList]
  exact hhead

/-- Without an open string, all tokens are read as before and the semicolon is next. -/
theorem tokens_extend (r : Reader) (hclosed : ∀ t ∈ r.tokens.front, ¬ t.Unterminated)
    (ds : List Char) : (r.extend ds).tokens = (r.atSemicolon ds).tokens.prepend r.tokens.front := by
  induction r using Reader.tokens.induct with
  | case1 r hnil =>
      have hextend : r.skipSpace.extend ds = r.skipSpace.atSemicolon ds := by
        simp only [extend, atSemicolon, hnil, List.nil_append, Position.after_nil]
      have hstay : (r.atSemicolon ds).skipSpace = r.atSemicolon ds := by
        simp [skipSpace, atSemicolon, isSpace]
      have hskip : (r.extend ds).skipSpace = (r.atSemicolon ds).skipSpace := by
        rw [skipSpace_extend, hextend, atSemicolon_skipSpace, hstay]
      rw [tokens_of_nil hnil, tokens_congr hskip]
      rfl
  | case2 r c cs hcons x hlt ih =>
      have hx := Lexeme.taken_atFront c cs
      rw [tokens_of_cons hcons] at hclosed ⊢
      have hfront : Lexeme.atFront c (cs ++ ';' :: ds) = Lexeme.atFront c cs := by
        refine Lexeme.atFront_append (fun hopen => ?_) ds
        exact hclosed _ List.mem_cons_self (unterminated_toToken _ hopen.1 hopen.2)
      have hcons' : (r.extend ds).skipSpace.input = c :: (cs ++ ';' :: ds) := by
        rw [skipSpace_extend, extend, hcons, List.cons_append]
      have hrest := ih fun t ht => hclosed t (List.mem_cons_of_mem _ ht)
      rw [atSemicolon_consume hx hcons, atSemicolon_skipSpace] at hrest
      rw [tokens_of_cons hcons', hfront, skipSpace_extend, consume_extend hx, hrest]
      rfl

/-- Behind the semicolon and a line feed, reading goes on as at the start of a text. -/
theorem tokens_atSemicolon (source source' : String) :
    ((ofSource source).atSemicolon ('\n' :: source'.toList)).tokens =
      ((tokenize source').down (1 + source.toList.count '\n')).prepend
        [⟨.semicolon, ";", .behind source.toList⟩] := by
  have hposition : Position.start.after source.toList = .behind source.toList :=
    Position.after_behind [] source.toList
  have hdown : ((Position.behind source.toList).next ';').next '\n' =
      Position.start.down (1 + source.toList.count '\n') := by
    rw [Position.next_behind, Position.next_behind, Position.behind_lineFeed]
    simp
  have hreader : (ofSource source).atSemicolon ('\n' :: source'.toList) =
      ⟨.behind source.toList, ';' :: '\n' :: source'.toList, false⟩ := by
    rw [← hposition]
    rfl
  have hfeed : tokens ⟨(Position.behind source.toList).next ';', '\n' :: source'.toList, false⟩ =
      (tokenize source').down (1 + source.toList.count '\n') := by
    rw [tokens_of_space_cons rfl rfl, tokenize, ← tokens_down, hdown]
    rfl
  rw [hreader, tokens_of_cons rfl, ← hfeed]
  rfl

end Reader

/-! ## Two texts -/

/-- A text without open strings, a semicolon and a line feed, and another text: the tokens of the
first, a semicolon, and those of the second on the lines where they now stand. -/
theorem tokenize_semicolon {source : String}
    (hclosed : ∀ t ∈ (tokenize source).front, ¬ t.Unterminated) (source' : String) :
    tokenize (source ++ ";\n" ++ source') =
      ((tokenize source').down (1 + source.toList.count '\n')).prepend
        ((tokenize source).front ++ [⟨.semicolon, ";", .behind source.toList⟩]) := by
  have hextend : Reader.ofSource (source ++ ";\n" ++ source') =
      (Reader.ofSource source).extend ('\n' :: source'.toList) := by
    simp [Reader.ofSource, Reader.extend]
  rw [tokenize, hextend, Reader.tokens_extend _ hclosed, Reader.tokens_atSemicolon,
    Tokens.prepend_prepend]
  rfl

end Token

end Monkey
