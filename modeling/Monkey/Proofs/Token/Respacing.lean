import Monkey.Proofs.Token.Concatenation
import Monkey.Proofs.Token.Spelling

/-! # Spaces between tokens

The end of a lexeme is decided by the one or two characters behind it, and no lexeme but a string
goes on over a space. So other spaces between the tokens of a text leave the tokens as they are, as
long as tokens that stood apart still do (`Respacing.tokenize_eq`).
-/

namespace Monkey.Token

/-! ## Texts that start alike -/

/-- The second text is like the first, up to its end or to a space in it. -/
inductive Resembles : List Char → List Char → Prop
  | stop {rest rest'} (hspace : ∀ c ∈ rest'.head?, isSpace c = true) : Resembles rest rest'
  | cons {c rest rest'} (hrest : Resembles rest rest') : Resembles (c :: rest) (c :: rest')

variable {c : Char} {cs rest rest' : List Char}

theorem Resembles.append (h : Resembles rest rest') (cs : List Char) :
    Resembles (cs ++ rest) (cs ++ rest') := by
  induction cs with
  | nil => exact h
  | cons c cs ih => exact ih.cons

/-- A character that is no space stands at the front of both texts. -/
theorem Resembles.exists_cons (h : Resembles rest (c :: rest')) (hc : isSpace c = false) :
    ∃ tail, rest = c :: tail ∧ Resembles tail rest' := by
  cases h with
  | stop hspace =>
      rw [hspace c rfl] at hc
      cases hc
  | cons hrest => exact ⟨_, rfl, hrest⟩

/-- What is said of no space and not of the first character of a text, is not said of the first
character of a text that resembles it. -/
theorem Resembles.head (h : Resembles rest rest') {p : Char → Bool}
    (hspace : ∀ c, isSpace c = true → p c = false) (hhead : ∀ c ∈ rest.head?, p c = false) :
    ∀ c ∈ rest'.head?, p c = false := by
  cases h with
  | stop hstop => exact fun c hc => hspace c (hstop c hc)
  | cons hrest => exact hhead

/-! ## Lexemes -/

theorem isAlphanumeric_of_isSpace (hc : isSpace c = true) : Text.isAlphanumeric c = false := by
  rw [Bool.eq_false_iff]
  intro hword
  rw [isSpace_of_isAlphanumeric hword] at hc
  cases hc

theorem isDigit_of_isSpace (hc : isSpace c = true) : c.isDigit = false := by
  rw [Bool.eq_false_iff]
  intro hdigit
  have hword := isAlphanumeric_of_isDigit hdigit
  rw [isAlphanumeric_of_isSpace hc] at hword
  cases hword

namespace Lexeme

/-- A run of characters ends where it ended. -/
theorem run_of_resembles {p : Char → Bool} (hspace : ∀ c, isSpace c = true → p c = false)
    (h : Resembles rest rest') (htake : (cs ++ rest).takeWhile p = cs) :
    (cs ++ rest').takeWhile p = cs ∧ (cs ++ rest').dropWhile p = rest' := by
  have hall : ∀ c ∈ cs, p c = true := by
    rw [← htake]
    exact fun c hc => List.mem_takeWhile_imp hc
  have hhead : ∀ c ∈ rest.head?, p c = false := by
    intro c hc
    obtain ⟨tail, rfl⟩ := List.head?_eq_some_iff.mp hc
    rw [List.takeWhile_append_of_pos hall] at htake
    by_contra hp
    rw [Bool.not_eq_false] at hp
    simp [hp] at htake
  have hhead' := h.head hspace hhead
  exact ⟨Text.takeWhile_append_of_boundary hall hhead',
    Text.dropWhile_append_of_boundary hall hhead'⟩

theorem word_of_resembles (h : Resembles rest rest')
    (htext : (word c (cs ++ rest)).text = c :: cs) :
    word c (cs ++ rest') = word c (cs ++ rest) := by
  have htake := (List.cons.inj htext).2
  unfold word
  rw [htake, (run_of_resembles (fun _ => isAlphanumeric_of_isSpace) h htake).1]

/-- The digits of a fraction at the front of the text. -/
def fraction : List Char → List Char
  | '.' :: more => more.takeWhile Char.isDigit
  | _ => []

theorem number_eq {whole : List Char} (hwhole : (whole ++ rest).takeWhile Char.isDigit = whole) :
    number (whole ++ rest) = if (fraction rest).isEmpty then ⟨.int, whole⟩
      else ⟨.float, whole ++ '.' :: fraction rest⟩ := by
  have hrest : (whole ++ rest).dropWhile Char.isDigit = rest := by
    have hsplit := List.takeWhile_append_dropWhile (p := Char.isDigit) (l := whole ++ rest)
    rw [hwhole] at hsplit
    exact List.append_cancel_left hsplit
  unfold number
  rw [hwhole, hrest]
  rfl

/-- Without a fraction in the first text there is none in the second. -/
theorem fraction_of_resembles (h : Resembles rest rest') (hnone : fraction rest = []) :
    fraction rest' = [] := by
  fun_cases fraction rest' with
  | case1 more =>
      obtain ⟨tail, rfl, htail⟩ := h.exists_cons rfl
      have hrun : ([] ++ tail).takeWhile Char.isDigit = [] := hnone
      exact (run_of_resembles (fun _ => isDigit_of_isSpace) htail hrun).1
  | case2 => rfl

theorem number_of_resembles (h : Resembles rest rest') (htext : (number (cs ++ rest)).text = cs) :
    number (cs ++ rest') = number (cs ++ rest) := by
  have hspace (c : Char) : isSpace c = true → c.isDigit = false := isDigit_of_isSpace
  obtain ⟨whole, more, hinput, hwhole⟩ : ∃ whole more, cs ++ rest = whole ++ more ∧
      (whole ++ more).takeWhile Char.isDigit = whole :=
    ⟨_, _, List.takeWhile_append_dropWhile.symm, by rw [List.takeWhile_append_dropWhile]⟩
  rw [hinput, number_eq hwhole] at htext ⊢
  split_ifs at htext ⊢ with hfraction
  · -- All of the text is one run of digits.
    obtain rfl : whole = cs := htext
    obtain rfl := List.append_cancel_left hinput
    rw [List.isEmpty_iff] at hfraction
    rw [number_eq (run_of_resembles hspace h hwhole).1, fraction_of_resembles h hfraction]
    rfl
  · -- The text is a run of digits, a point and another run.
    obtain rfl : whole ++ '.' :: fraction more = cs := htext
    rw [List.append_assoc] at hinput ⊢
    have hmore : more = '.' :: (fraction more ++ rest) := (List.append_cancel_left hinput).symm
    have hrun : (fraction more ++ rest).takeWhile Char.isDigit = fraction more := by
      nth_rewrite 2 [hmore]
      rfl
    have hsame : fraction ('.' :: fraction more ++ rest') = fraction more :=
      (run_of_resembles hspace h hrun).1
    have hpoint : (whole ++ ('.' :: fraction more ++ rest')).takeWhile Char.isDigit = whole := by
      refine Text.takeWhile_append_of_boundary (fun c hc => ?_) fun c hc => ?_
      · rw [← hwhole] at hc
        exact List.mem_takeWhile_imp hc
      · cases hc
        decide
    rw [number_eq hpoint, hsame, if_neg hfraction]

/-- The lexeme is a string that goes on to the end of its text. -/
def Open (x : Lexeme) : Prop :=
  x.kind = .illegal ∧ x.text.head? = some '"'

theorem quoted_of_closed {input : List Char} (htext : (quoted input).text = '"' :: cs)
    (hclosed : ¬ (quoted input).Open) (rest' : List Char) :
    atFront '"' (cs ++ rest') = quoted input := by
  rcases quoted_cases input with hopen | ⟨content, hcontent, hstring⟩
  · rw [hopen] at hclosed
    exact absurd ⟨rfl, rfl⟩ hclosed
  · rw [hstring] at htext ⊢
    obtain rfl := (List.cons.inj htext).2
    obtain ⟨d, ds, hcons, -, hsame⟩ := leads_string hcontent rest'
    obtain ⟨rfl, rfl⟩ := List.cons.inj hcons
    exact hsame

/-- A lexeme at the front of a text, unless it is an open string, is also the one at the front where
a text follows that resembles the one behind it. -/
theorem atFront_of_resembles (h : Resembles rest rest')
    (htext : (atFront c (cs ++ rest)).text = c :: cs) (hclosed : ¬ (atFront c (cs ++ rest)).Open) :
    atFront c (cs ++ rest') = atFront c (cs ++ rest) := by
  -- A second character that did not follow does not follow now.
  have hsecond {d : Char} (hspace : isSpace d = false) (hnil : cs = [])
      (hcs : ∀ tail, cs ++ rest = d :: tail → False) :
      ∀ tail, cs ++ rest' = d :: tail → False := by
    subst hnil
    rintro tail rfl
    obtain ⟨tail', hrest, -⟩ := h.exists_cons hspace
    exact hcs tail' hrest
  revert htext hclosed
  generalize hinput : cs ++ rest = input at hsecond
  fun_cases atFront c input
  case case2 hcs =>
    intro htext _
    rw [atFront]
    exact hsecond rfl (List.cons.inj htext).2.symm hcs
  case case4 hcs =>
    intro htext _
    rw [atFront]
    exact hsecond rfl (List.cons.inj htext).2.symm hcs
  case case21 =>
    intro htext hclosed
    exact quoted_of_closed htext hclosed rest'
  case case22 hdigit _ _ _ _ =>
    intro htext _
    rw [← hinput, ← List.cons_append] at htext ⊢
    rw [atFront_of_isAlphanumeric (isAlphanumeric_of_isDigit hdigit), if_pos hdigit,
      ← List.cons_append, number_of_resembles h htext]
  case case23 hdigit hletter _ _ _ _ =>
    intro htext _
    rw [← hinput] at htext ⊢
    rw [atFront_of_isAlphanumeric (Text.isAlphanumeric_of_isAlphabetic hletter), if_neg hdigit,
      if_pos hletter, word_of_resembles h htext]
  case case24 hdigit hletter _ _ hand hor =>
    intro htext _
    have hnil := (List.cons.inj htext).2.symm
    have hand' (hc : c = '&') := hsecond rfl hnil fun tail => hand tail hc
    have hor' (hc : c = '|') := hsecond rfl hnil fun tail => hor tail hc
    rw [atFront, if_neg hdigit, if_neg hletter]
    all_goals grind
  all_goals
    intro htext _
    cases htext
    rfl

end Lexeme

/-! ## Texts with other spaces -/

/-- The token without its position. -/
def bare (t : Token) : Token :=
  { t with position := .start }

/-- A token with the spaces in front of it in one text and in another. -/
structure Piece where
  token : Token
  gap : List Char
  gap' : List Char

/-- The first text is the tokens with the first spaces, and the second text is the same tokens with
the second spaces, where tokens that stood apart still do. -/
structure Respacing (pieces : List Piece) (trailing trailing' text text' : List Char) : Prop where
  text_eq : text = written (pieces.map fun piece => (piece.gap, piece.token)) ++ trailing
  text_eq' : text' = written (pieces.map fun piece => (piece.gap', piece.token)) ++ trailing'
  space_of_mem : ∀ piece ∈ pieces, ∀ c ∈ piece.gap ++ piece.gap', c ∈ [' ', '\t', '\r', '\n']
  space_of_mem_trailing : ∀ c ∈ trailing ++ trailing', c ∈ [' ', '\t', '\r', '\n']
  apart : ∀ piece ∈ pieces.tail, piece.gap ≠ [] → piece.gap' ≠ []

theorem isSpace_of_mem (hc : c ∈ [' ', '\t', '\r', '\n']) : isSpace c = true := by
  simpa [isSpace, or_assoc] using hc

namespace Respacing

variable {piece : Piece} {pieces : List Piece} {trailing trailing' text text' : List Char}

/-- What stands behind the first token. -/
theorem tail (h : Respacing (piece :: pieces) trailing trailing' text text') :
    ∃ rest rest', text = piece.gap ++ (piece.token.raw ++ rest) ∧
      text' = piece.gap' ++ (piece.token.raw ++ rest') ∧
      Respacing pieces trailing trailing' rest rest' := by
  refine ⟨_, _, ?_, ?_, rfl, rfl, fun other hother => ?_, h.space_of_mem_trailing,
    fun other hother => ?_⟩
  · rw [h.text_eq]
    simp [written]
  · rw [h.text_eq']
    simp [written]
  · exact h.space_of_mem other (List.mem_cons_of_mem _ hother)
  · exact h.apart other (List.mem_of_mem_tail hother)

/-- Behind a token, the second text is like the first up to a space or its end. -/
theorem resembles (h : Respacing pieces trailing trailing' text text')
    (hapart : ∀ piece ∈ pieces, piece.gap ≠ [] → piece.gap' ≠ []) : Resembles text text' := by
  induction pieces generalizing text text' with
  | nil =>
      refine .stop fun c hc => isSpace_of_mem (h.space_of_mem_trailing c ?_)
      rw [h.text_eq'] at hc
      exact List.mem_append_right _ (List.mem_of_mem_head? hc)
  | cons piece pieces ih =>
      obtain ⟨rest, rest', rfl, rfl, hrest⟩ := h.tail
      cases hgap' : piece.gap' with
      | nil =>
          have hgap : piece.gap = [] :=
            not_not.mp fun hne => hapart piece List.mem_cons_self hne hgap'
          rw [hgap]
          exact (ih hrest fun other hother => hapart other (List.mem_cons_of_mem _ hother)).append _
      | cons d ds =>
          refine .stop fun c hc => isSpace_of_mem (h.space_of_mem piece List.mem_cons_self c ?_)
          cases hc
          simp [hgap']

end Respacing

/-! ## Reading them -/

namespace Lexeme

/-- An open string leaves nothing behind it. -/
theorem Open.rest_eq_nil {x : Lexeme} (hopen : x.Open) (hleads : Leads x rest) : rest = [] := by
  obtain ⟨c, cs, htext, -, rfl⟩ := hleads
  obtain rfl : c = '"' := by
    have hhead := hopen.2
    rw [htext] at hhead
    exact Option.some.inj hhead
  rcases quoted_cases (cs ++ rest) with hquoted | ⟨content, -, hquoted⟩
  · have hsame : (quoted (cs ++ rest)).text = '"' :: cs := htext
    rw [hquoted] at hsame
    exact List.append_right_eq_self.mp (List.cons.inj hsame).2
  · have hillegal : (quoted (cs ++ rest)).kind = .illegal := hopen.1
    rw [hquoted] at hillegal
    cases hillegal

end Lexeme

/-- A closed lexeme at the front of one text is the lexeme at the front of the other. -/
theorem Leads.of_resembles {x : Lexeme} (hleads : Leads x rest) (h : Resembles rest rest')
    (hclosed : ¬ x.Open) : Leads x rest' := by
  obtain ⟨c, cs, htext, hspace, rfl⟩ := hleads
  exact ⟨c, cs, htext, hspace, Lexeme.atFront_of_resembles h htext hclosed⟩

/-- The first token of a text, as the lexeme that it was made of. -/
theorem Reader.leads_of_tokens {r : Reader} {gap : List Char} {t : Token} {ts : List Token}
    (hinput : r.input = gap ++ (t.raw ++ rest)) (hgap : ∀ c ∈ gap, isSpace c = true)
    (htokens : r.tokens.front = t :: ts) :
    ∃ (x : Lexeme) (r' : Reader), Leads x rest ∧ t = x.toToken t.position ∧ x.text = t.raw ∧
      r'.input = rest ∧ r'.tokens.front = ts := by
  cases hskip : r.skipSpace.input with
  | nil =>
      rw [tokens_of_nil hskip] at htokens
      cases htokens
  | cons c cs =>
      have htaken := Lexeme.taken_atFront c cs
      rw [tokens_of_cons hskip] at htokens
      obtain ⟨rfl, hts⟩ := List.cons.inj htokens
      have hraw := htaken.raw_toToken r.skipSpace.position
      rw [hraw] at hinput
      have hconsume := consume_input htaken r.skipSpace
      obtain ⟨d, ds, htext⟩ := List.exists_cons_of_ne_nil htaken.ne_nil
      obtain rfl : d = c := by
        rw [htext, List.cons_append] at hconsume
        exact (List.cons.inj hconsume).1
      have hspace : isSpace d = false := by
        have hhead := List.head?_dropWhile_not isSpace r.input
        rw [show r.input.dropWhile isSpace = d :: cs from hskip] at hhead
        simpa using hhead
      have hcs : d :: cs = d :: (ds ++ rest) := by
        rw [← hskip, skipSpace, hinput, htext]
        refine Text.dropWhile_append_of_boundary hgap fun e he => ?_
        cases he
        exact hspace
      obtain rfl := (List.cons.inj hcs).2
      rw [htext] at hconsume
      refine ⟨_, _, ⟨d, ds, htext, hspace, rfl⟩, rfl, hraw.symm, ?_, hts⟩
      exact List.append_cancel_left hconsume

/-- The second text is read as the tokens of the first, at other positions. -/
theorem Respacing.spells {pieces : List Piece} {trailing trailing' text text' : List Char}
    (h : Respacing pieces trailing trailing' text text') {r : Reader} (hr : r.input = text)
    (htokens : r.tokens.front = pieces.map Piece.token)
    (hopen : ∀ t ∈ r.tokens.front.getLast?, t.Unterminated → trailing' = []) :
    Spells text' [] fun ts => ts.map bare = r.tokens.front.map bare := by
  induction pieces generalizing r text text' with
  | nil =>
      have hspace : ∀ c ∈ trailing', isSpace c = true := fun c hc =>
        isSpace_of_mem (h.space_of_mem_trailing c (List.mem_append_right _ hc))
      have hspaces : Spells (trailing' ++ []) [] fun ts => ts.map bare = [] :=
        .spaces hspace (.nil rfl)
      rw [List.append_nil] at hspaces
      rw [h.text_eq', htokens]
      exact hspaces
  | cons piece pieces ih =>
      obtain ⟨rest, rest', rfl, rfl, hrest⟩ := h.tail
      have hgaps := h.space_of_mem piece List.mem_cons_self
      obtain ⟨x, r', hleads, htoken, htext, hr', htokens'⟩ := Reader.leads_of_tokens hr
        (fun c hc => isSpace_of_mem (hgaps c (List.mem_append_left _ hc))) htokens
      rw [htokens, List.map_cons] at hopen
      have hlater : ∀ t ∈ r'.tokens.front.getLast?, t.Unterminated → trailing' = [] := by
        intro t ht
        rw [htokens'] at ht
        exact hopen t (List.mem_getLast?_cons ht)
      have hleads' : Leads x rest' := by
        by_cases hx : x.Open
        · -- Nothing stands behind an open string, here as there.
          obtain rfl := hx.rest_eq_nil hleads
          have hnil : pieces.map Piece.token = [] := by
            rw [← htokens', Reader.tokens_of_nil (by rw [Reader.skipSpace, hr']; rfl)]
          obtain rfl := List.map_eq_nil_iff.mp hnil
          have htrailing : trailing' = [] := by
            refine hopen piece.token rfl ?_
            rw [htoken]
            exact Reader.unterminated_toToken _ hx.1 hx.2
          rwa [hrest.text_eq', htrailing]
        · exact hleads.of_resembles (hrest.resembles h.apart) hx
      refine .spaces (fun c hc => isSpace_of_mem (hgaps c (List.mem_append_right _ hc))) ?_
      rw [← htext]
      refine .token (by rwa [List.append_nil]) fun t hkind hliteral => ?_
      refine (ih hrest hr' htokens' hlater).mono fun ts hts => ?_
      have hbare : t.bare = piece.token.bare := by
        rw [htoken, bare, hkind, hliteral]
        rfl
      rw [htokens, List.map_cons, List.map_cons, List.map_cons, hbare, hts, htokens']

/-- The tokens of a text are those of any text that differs from it in the spaces only. -/
theorem Respacing.tokenize_eq {pieces : List Piece} {trailing trailing' : List Char}
    {source source' : String}
    (h : Respacing pieces trailing trailing' source.toList source'.toList)
    (htokens : (tokenize source).front = pieces.map Piece.token)
    (hopen : ∀ t ∈ (tokenize source).front.getLast?, t.Unterminated → trailing' = []) :
    (tokenize source').front.map bare = (tokenize source).front.map bare :=
  Spells.tokenize (h.spells (r := .ofSource source) rfl htokens hopen)

end Monkey.Token
