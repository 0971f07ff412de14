import Mathlib.Data.List.DropRight
import Mathlib.Data.List.Nodup
import Monkey.Proofs.Token

/-! # Where the tokens of a source text stand

A source text is its tokens as they are written, with spaces between them: no character is lost,
doubled or moved. The position of a token counts the lines and the characters of its line that
stand before it.
-/

namespace Monkey

/-- The place behind the given text: one line more than it has line feeds, and one column more than
there are characters behind the last of them. -/
def Position.behind (before : List Char) : Position :=
  ⟨1 + before.count '\n', 1 + (before.rtakeWhile (· ≠ '\n')).length⟩

theorem Position.next_behind (before : List Char) (c : Char) :
    (Position.behind before).next c = .behind (before ++ [c]) := by
  unfold Position.next Position.behind
  split
  next hfeed =>
    subst hfeed
    simp [Nat.add_assoc]
  next hother => simp [hother, Nat.add_comm]

theorem Position.after_behind (before cs : List Char) :
    (Position.behind before).after cs = .behind (before ++ cs) := by
  induction cs generalizing before with
  | nil => rw [after_nil, List.append_nil]
  | cons c cs ih => rw [after_cons, next_behind, ih, List.append_assoc, List.singleton_append]

namespace Position

variable {p q r : Position}

/-- The first place stands earlier in a text than the second. -/
def Before (p q : Position) : Prop :=
  p.line < q.line ∨ p.line = q.line ∧ p.column < q.column

theorem Before.trans (hpq : p.Before q) (hqr : q.Before r) : p.Before r := by
  unfold Before at *
  omega

theorem Before.ne (hpq : p.Before q) : p ≠ q := by
  rintro rfl
  unfold Before at hpq
  omega

theorem before_next (p : Position) (c : Char) : p.Before (p.next c) := by
  unfold Before next
  split
  · exact .inl (Nat.lt_succ_self _)
  · exact .inr ⟨rfl, Nat.lt_succ_self _⟩

/-- No text leads back. -/
theorem eq_or_before_after (p : Position) (cs : List Char) :
    p = p.after cs ∨ p.Before (p.after cs) := by
  induction cs generalizing p with
  | nil => exact .inl rfl
  | cons c cs ih =>
      rw [after_cons]
      rcases ih (p.next c) with heq | hbefore
      · exact .inr (heq ▸ p.before_next c)
      · exact .inr ((p.before_next c).trans hbefore)

theorem before_after {cs : List Char} (hne : cs ≠ []) (p : Position) : p.Before (p.after cs) := by
  cases cs with
  | nil => exact absurd rfl hne
  | cons c cs =>
      rw [after_cons]
      rcases (p.next c).eq_or_before_after cs with heq | hbefore
      · exact heq ▸ p.before_next c
      · exact (p.before_next c).trans hbefore

end Position

namespace Token

/-- A token as it is written: a string stands between its quotes. -/
def raw (t : Token) : List Char :=
  if t.kind = .string then '"' :: (t.literal.toList ++ ['"']) else t.literal.toList

/-! ## Lexemes -/

namespace Lexeme

/-- The lexeme is a piece of text at the front of the input, and its token is written like it. -/
structure Taken (x : Lexeme) (input : List Char) : Prop where
  ne_nil : x.text ≠ []
  front : x.text <+: input
  raw_toToken : ∀ position, (x.toToken position).raw = x.text

theorem raw_toToken_of_kind {x : Lexeme} (hkind : x.kind ≠ .string) (position : Position) :
    (x.toToken position).raw = x.text := by
  obtain ⟨kind, text⟩ := x
  have hliteral : literal ⟨kind, text⟩ = String.ofList text := by
    cases kind with
    | string => exact absurd rfl hkind
    | _ => rfl
  rw [raw, toToken, if_neg hkind, hliteral, String.toList_ofList]

/-- Text that is no string is written as it is. -/
theorem taken_plain {kind : Kind} {text input : List Char} (hkind : kind ≠ .string)
    (hne : text ≠ []) (hfront : text <+: input) : Taken ⟨kind, text⟩ input :=
  ⟨hne, hfront, raw_toToken_of_kind hkind⟩

theorem taken_quoted (cs : List Char) : (quoted cs).Taken ('"' :: cs) := by
  have hsplit := List.takeWhile_append_dropWhile (p := (· ≠ '"')) (l := cs)
  unfold quoted
  dsimp only
  split
  next hend =>
    refine taken_plain (by decide) (List.cons_ne_nil _ _) ⟨[], ?_⟩
    rw [hend, List.append_nil] at hsplit
    rw [List.append_nil, hsplit]
  next quote rest hrest =>
    have hquote : quote = '"' := by
      have hhead := List.head?_dropWhile_not (· ≠ '"') cs
      rw [hrest] at hhead
      simpa using hhead
    refine ⟨List.cons_ne_nil _ _, ⟨rest, ?_⟩, fun position => ?_⟩
    · rw [hrest, hquote] at hsplit
      simp only [List.cons_append, List.append_assoc, List.nil_append, hsplit]
    · simp [raw, toToken, literal]

theorem taken_number {c : Char} (hc : c.isDigit = true) (cs : List Char) :
    (number (c :: cs)).Taken (c :: cs) := by
  have hwhole : (c :: cs).takeWhile Char.isDigit ≠ [] := by simp [hc]
  unfold number
  dsimp only
  split_ifs with hfraction
  · exact taken_plain (by decide) hwhole (List.takeWhile_prefix _)
  · refine taken_plain (by decide) (by simp) ?_
    -- Without a point there would be no fraction.
    split at hfraction
    next more hmore =>
      refine ⟨more.dropWhile Char.isDigit, ?_⟩
      have hsplit := List.takeWhile_append_dropWhile (p := Char.isDigit) (l := c :: cs)
      rw [hmore] at hsplit
      simp only [List.append_assoc, List.cons_append, List.takeWhile_append_dropWhile, hsplit]
    next => simp at hfraction

theorem taken_word (c : Char) (cs : List Char) : (word c cs).Taken (c :: cs) := by
  refine taken_plain ?_ (List.cons_ne_nil _ _) ?_
  · have hword := ofWord_mem (String.ofList (c :: cs.takeWhile Text.isAlphanumeric))
    intro hstring
    rw [hstring] at hword
    revert hword
    decide
  · exact List.cons_prefix_cons.mpr ⟨rfl, List.takeWhile_prefix _⟩

/-- The lexeme at the front of a text is a piece of that text. -/
theorem taken_atFront (c : Char) (cs : List Char) : (atFront c cs).Taken (c :: cs) := by
  unfold atFront
  split
  case h_21 => exact taken_quoted _
  case h_22 =>
    split_ifs with hdigit hletter
    · exact taken_number hdigit _
    · exact taken_word _ _
    · exact taken_plain (by decide) (List.cons_ne_nil _ _) (by simp)
  all_goals exact taken_plain (by decide) (List.cons_ne_nil _ _) (by simp)

end Lexeme

/-! ## Layouts -/

/-- The text of tokens, each with the text that stands in front of it. -/
def written (pieces : List (List Char × Token)) : List Char :=
  pieces.flatMap fun piece => piece.1 ++ piece.2.raw

/-- A way to read `text`, which stands behind `before`, as tokens with spaces in front of each and
at the end. Every token has the position of its first character. -/
structure Layout (before text : List Char) where
  pieces : List (List Char × Token)
  trailing : List Char
  text_eq : text = written pieces ++ trailing
  space_of_mem : ∀ piece ∈ pieces, ∀ c ∈ piece.1, c ∈ [' ', '\t', '\r', '\n']
  space_of_mem_trailing : ∀ c ∈ trailing, c ∈ [' ', '\t', '\r', '\n']
  position_eq : ∀ earlier gap t later, pieces = earlier ++ (gap, t) :: later →
    t.position = .behind (before ++ (written earlier ++ gap))

namespace Layout

variable {before text : List Char}

/-- The tokens in their order. -/
def tokens (layout : Layout before text) : List Token :=
  layout.pieces.map Prod.snd

theorem mem_spaces {c : Char} (hc : isSpace c = true) : c ∈ [' ', '\t', '\r', '\n'] := by
  simpa [isSpace, or_assoc] using hc

/-- Text of spaces alone. -/
def spaces (hspace : ∀ c ∈ text, isSpace c = true) : Layout before text where
  pieces := []
  trailing := text
  text_eq := rfl
  space_of_mem := nofun
  space_of_mem_trailing c hc := mem_spaces (hspace c hc)
  position_eq earlier gap t later hpieces := by simp at hpieces

/-- A layout with spaces and a token in front. -/
def cons {rest gap : List Char} {t : Token} (htext : text = gap ++ (t.raw ++ rest))
    (hspace : ∀ c ∈ gap, isSpace c = true) (hposition : t.position = .behind (before ++ gap))
    (layout : Layout (before ++ (gap ++ t.raw)) rest) : Layout before text where
  pieces := (gap, t) :: layout.pieces
  trailing := layout.trailing
  text_eq := by
    rw [htext]
    nth_rewrite 1 [layout.text_eq]
    simp [written]
  space_of_mem := by
    intro piece hpiece c hc
    rcases List.mem_cons.mp hpiece with rfl | hpiece
    · exact mem_spaces (hspace c hc)
    · exact layout.space_of_mem piece hpiece c hc
  space_of_mem_trailing := layout.space_of_mem_trailing
  position_eq := by
    intro earlier gap' t' later hpieces
    cases earlier with
    | nil =>
        cases hpieces
        exact hposition
    | cons piece earlier =>
        obtain ⟨rfl, htail⟩ := List.cons.inj hpieces
        have hlater := layout.position_eq earlier gap' t' later htail
        simpa [written] using hlater

end Layout

/-! ## The tokens of a source text -/

namespace Reader

theorem position_skipSpace {r : Reader} {before : List Char} (hr : r.position = .behind before) :
    r.skipSpace.position = .behind (before ++ r.input.takeWhile isSpace) := by
  rw [skipSpace, hr, Position.after_behind]

theorem consume_input {x : Lexeme} {c : Char} {cs : List Char} (hx : x.Taken (c :: cs))
    (r : Reader) : x.text ++ (r.consume x cs).input = c :: cs := by
  obtain ⟨d, ds, htext⟩ := List.exists_cons_of_ne_nil hx.ne_nil
  have hdrop := List.prefix_iff_eq_append.mp hx.front
  rw [htext, List.length_cons, List.drop_succ_cons] at hdrop
  rw [consume, htext, List.length_cons, Nat.add_sub_cancel]
  exact hdrop

/-- What is left to read is laid out as the tokens that the reader delivers, wherever it stands. -/
def LaidOut (r : Reader) : Prop :=
  ∀ before, r.position = .behind before →
    ∃ layout : Layout before r.input,
      layout.tokens = r.tokens.front ∧ r.tokens.last = ⟨.eof, "", .behind (before ++ r.input)⟩

variable {r : Reader}

theorem laidOut_of_nil (hnil : r.skipSpace.input = []) : r.LaidOut := by
  intro before hr
  have hall : r.input.takeWhile isSpace = r.input := by
    have hsplit := List.takeWhile_append_dropWhile (p := isSpace) (l := r.input)
    rw [show r.input.dropWhile isSpace = [] from hnil, List.append_nil] at hsplit
    exact hsplit
  have hposition := position_skipSpace hr
  rw [hall] at hposition
  rw [tokens_of_nil hnil, ← hposition]
  exact ⟨.spaces (List.takeWhile_eq_self_iff.mp hall), rfl, rfl⟩

theorem laidOut_of_cons {c : Char} {cs : List Char} (hcons : r.skipSpace.input = c :: cs)
    (hrest : (r.skipSpace.consume (Lexeme.atFront c cs) cs).LaidOut) : r.LaidOut := by
  intro before hr
  have hx := Lexeme.taken_atFront c cs
  have hposition := position_skipSpace hr
  have hspace : ∀ d ∈ r.input.takeWhile isSpace, isSpace d = true :=
    fun d hd => List.mem_takeWhile_imp hd
  have hnext : (r.skipSpace.consume (Lexeme.atFront c cs) cs).position =
      .behind (before ++ (r.input.takeWhile isSpace ++ (Lexeme.atFront c cs).text)) := by
    rw [consume, hposition, Position.after_behind, List.append_assoc]
  have hinput : r.input = r.input.takeWhile isSpace ++
      ((Lexeme.atFront c cs).text ++ (r.skipSpace.consume (Lexeme.atFront c cs) cs).input) := by
    rw [consume_input hx, ← hcons]
    exact List.takeWhile_append_dropWhile.symm
  rw [← hx.raw_toToken r.skipSpace.position] at hnext hinput
  obtain ⟨layout, htokens, hlast⟩ := hrest _ hnext
  rw [tokens_of_cons hcons]
  refine ⟨layout.cons hinput hspace hposition, congrArg (_ :: ·) htokens, ?_⟩
  rw [List.append_assoc, List.append_assoc, ← hinput] at hlast
  exact hlast

theorem laidOut (r : Reader) : r.LaidOut := by
  induction r using Reader.tokens.induct with
  | case1 r hnil => exact laidOut_of_nil hnil
  | case2 r c cs hcons x hlt ih => exact laidOut_of_cons hcons ih

/-- The tokens that the reader delivers stand one behind the other, and none before the reader. -/
theorem tokens_ordered (r : Reader) :
    r.tokens.toList.Pairwise (·.position.Before ·.position) ∧
      ∀ t ∈ r.tokens.toList, r.position = t.position ∨ r.position.Before t.position := by
  induction r using Reader.tokens.induct with
  | case1 r hnil =>
      rw [tokens_of_nil hnil]
      refine ⟨List.pairwise_singleton _ _, List.forall_mem_singleton.mpr ?_⟩
      exact r.position.eq_or_before_after _
  | case2 r c cs hcons x hlt ih =>
      obtain ⟨hpairwise, hbehind⟩ := ih
      rw [tokens_of_cons hcons]
      -- The lexeme in front has characters, and every later token stands behind them.
      have hconsumed : r.skipSpace.position.Before (r.skipSpace.consume x cs).position :=
        Position.before_after (Lexeme.taken_atFront c cs).ne_nil _
      have hlater : ∀ t ∈ (r.skipSpace.consume x cs).tokens.toList,
          r.skipSpace.position.Before t.position := by
        intro t ht
        rcases hbehind t ht with heq | hbefore
        · exact heq ▸ hconsumed
        · exact hconsumed.trans hbefore
      have hskipped : r.position = r.skipSpace.position ∨ r.position.Before r.skipSpace.position :=
        r.position.eq_or_before_after _
      refine ⟨hpairwise.cons hlater, List.forall_mem_cons.mpr ⟨hskipped, fun t ht => .inr ?_⟩⟩
      rcases hskipped with heq | hbefore
      · exact heq ▸ hlater t ht
      · exact hbefore.trans (hlater t ht)

end Reader

/-- A source text is laid out as its tokens, in their order, with spaces between them. The only end
marker is the last token, and it stands behind the whole text. -/
theorem tokenize_layout (source : String) :
    ∃ layout : Layout [] source.toList,
      (tokenize source).toList = layout.tokens ++ [⟨.eof, "", .behind source.toList⟩] ∧
      ∀ t ∈ layout.tokens, t.kind ≠ .eof := by
  have hlaid : ∃ layout : Layout [] source.toList, layout.tokens = (tokenize source).front ∧
      (tokenize source).last = ⟨.eof, "", .behind source.toList⟩ :=
    (Reader.ofSource source).laidOut [] rfl
  obtain ⟨layout, htokens, hlast⟩ := hlaid
  refine ⟨layout, ?_, ?_⟩
  · rw [Tokens.toList, hlast, htokens]
  · rw [htokens]
    exact fun t ht => (lexical_of_mem_tokenize source t ht).kind_ne

/-- No two tokens of a source text stand at one place. -/
theorem eq_of_position_eq {source : String} {t u : Token} (ht : t ∈ (tokenize source).toList)
    (hu : u ∈ (tokenize source).toList) (hposition : t.position = u.position) : t = u := by
  have hapart : ((tokenize source).toList.map position).Nodup :=
    (List.pairwise_map.mpr (Reader.ofSource source).tokens_ordered.1).imp Position.Before.ne
  exact List.inj_on_of_nodup_map hapart ht hu hposition

end Token

end Monkey
