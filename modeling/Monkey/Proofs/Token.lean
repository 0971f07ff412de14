import Monkey.Proofs.Decimal.Notation
import Monkey.Proofs.Program.Rules
import Monkey.Token.Reader

/-! # Tokens have the shape of their kind

The literal of a token from a source text is a word, a numeral, a number with a point or a text
without quotes, as its kind says, and no token before the last is an end marker.
-/

namespace Monkey.Token

/-! ## The shapes of tokens -/

/-- A letter followed by letters and digits. -/
def IsWord (cs : List Char) : Prop :=
  ∃ c ds, cs = c :: ds ∧ Text.isAlphabetic c = true ∧ ∀ d ∈ ds, Text.isAlphanumeric d = true

/-- A word that is not reserved. -/
structure IsName (name : String) : Prop where
  isWord : IsWord name.toList
  ofWord_eq : Kind.ofWord name = .ident

/-- One digit or more. -/
def IsNumeral (cs : List Char) : Prop :=
  cs ≠ [] ∧ ∀ c ∈ cs, c.isDigit = true

/-- What the literal of a token from a source text looks like. -/
structure Lexical (t : Token) : Prop where
  kind_ne : t.kind ≠ .eof
  isName : t.kind = .ident → IsName t.literal
  isNumeral : t.kind = .int → IsNumeral t.literal.toList
  pointed : t.kind = .float → ∃ whole fraction, Decimal.Pointed t.literal.toList whole fraction
  unquoted : t.kind = .string → '"' ∉ t.literal.toList

variable {t : Token} {position : Position}

/-- Only five kinds say anything about the literal. -/
theorem Lexical.of_kind (h : t.kind ∉ [Kind.eof, .ident, .int, .float, .string]) : t.Lexical := by
  simp only [List.mem_cons, List.not_mem_nil, or_false, not_or] at h
  obtain ⟨heof, hident, hint, hfloat, hstring⟩ := h
  exact ⟨heof, fun h => absurd h hident, fun h => absurd h hint, fun h => absurd h hfloat,
    fun h => absurd h hstring⟩

theorem lexical_plain {kind : Kind} (h : kind ∉ [Kind.eof, .ident, .int, .float, .string])
    (text : List Char) : (Lexeme.toToken ⟨kind, text⟩ position).Lexical :=
  .of_kind h

theorem lexical_quoted (cs : List Char) : ((Lexeme.quoted cs).toToken position).Lexical := by
  unfold Lexeme.quoted
  dsimp only
  split
  · exact lexical_plain (by decide) _
  · refine ⟨by simp [Lexeme.toToken], by simp [Lexeme.toToken], by simp [Lexeme.toToken],
      by simp [Lexeme.toToken], fun _ hmem => ?_⟩
    simp only [Lexeme.toToken, Lexeme.literal, List.cons_append, List.tail_cons,
      List.dropLast_concat, String.toList_ofList] at hmem
    simpa using List.mem_takeWhile_imp hmem

theorem lexical_number {c : Char} (hc : c.isDigit = true) (cs : List Char) :
    ((Lexeme.number (c :: cs)).toToken position).Lexical := by
  have hwhole : (c :: cs).takeWhile Char.isDigit ≠ [] := by simp [hc]
  have hdigits : ∀ ds : List Char, ∀ d ∈ ds.takeWhile Char.isDigit, d.isDigit = true :=
    fun ds d hd => List.mem_takeWhile_imp hd
  unfold Lexeme.number
  dsimp only
  split_ifs with hfraction
  · refine ⟨by simp [Lexeme.toToken], by simp [Lexeme.toToken], fun _ => ?_,
      by simp [Lexeme.toToken], by simp [Lexeme.toToken]⟩
    simp only [Lexeme.toToken, Lexeme.literal, String.toList_ofList]
    exact ⟨hwhole, hdigits _⟩
  · refine ⟨by simp [Lexeme.toToken], by simp [Lexeme.toToken], by simp [Lexeme.toToken],
      fun _ => ?_, by simp [Lexeme.toToken]⟩
    simp only [Lexeme.toToken, Lexeme.literal, String.toList_ofList]
    refine ⟨_, _, rfl, hwhole, fun hnil => hfraction (by rw [hnil]; rfl), hdigits _, ?_⟩
    split
    · exact hdigits _
    · simp

theorem ofWord_mem (word : String) : Kind.ofWord word ∈ [Kind.ident, .fnWord, .letWord, .trueWord,
    .falseWord, .ifWord, .elseWord, .whileWord, .returnWord] := by
  unfold Kind.ofWord Kind.reserved
  simp only [List.lookup_cons, List.lookup_nil]
  repeat' split
  all_goals decide

theorem lexical_word {c : Char} (hc : Text.isAlphabetic c = true) (cs : List Char) :
    ((Lexeme.word c cs).toToken position).Lexical := by
  have hword := ofWord_mem (String.ofList (c :: cs.takeWhile Text.isAlphanumeric))
  have hkind : ((Lexeme.word c cs).toToken position).kind =
    Kind.ofWord (String.ofList (c :: cs.takeWhile Text.isAlphanumeric)) := rfl
  rw [← hkind] at hword
  by_cases hident : ((Lexeme.word c cs).toToken position).kind = .ident
  · have hliteral : ((Lexeme.word c cs).toToken position).literal =
        String.ofList (c :: cs.takeWhile Text.isAlphanumeric) := by
      rw [hkind] at hident
      simp only [Lexeme.toToken, Lexeme.literal, Lexeme.word, hident]
    refine ⟨by simp [hident], fun _ => ⟨?_, ?_⟩, by simp [hident], by simp [hident],
      by simp [hident]⟩
    · rw [hliteral, String.toList_ofList]
      exact ⟨c, _, rfl, hc, fun d hd => List.mem_takeWhile_imp hd⟩
    · rw [hliteral, ← hkind, hident]
  · refine .of_kind fun hmem => ?_
    revert hword hmem hident
    generalize ((Lexeme.word c cs).toToken position).kind = kind
    cases kind <;> decide

/-- The first lexeme of a text makes a token of the shape of its kind. -/
theorem lexical_atFront (c : Char) (cs : List Char) :
    ((Lexeme.atFront c cs).toToken position).Lexical := by
  unfold Lexeme.atFront
  split
  case h_21 => exact lexical_quoted _
  case h_22 =>
    split_ifs with hdigit hletter
    · exact lexical_number hdigit _
    · exact lexical_word hletter _
    · exact lexical_plain (by decide) _
  all_goals exact lexical_plain (by decide) _

namespace Reader

variable {r : Reader}

theorem tokens_of_nil (h : r.skipSpace.input = []) :
    r.tokens = ⟨[], r.skipSpace.eofToken, rfl⟩ := by
  unfold tokens
  split
  · rfl
  next hcons => simp [h] at hcons

theorem tokens_of_cons {c : Char} {cs : List Char} (h : r.skipSpace.input = c :: cs) :
    r.tokens = (r.skipSpace.consume (Lexeme.atFront c cs) cs).tokens.prepend
      [(Lexeme.atFront c cs).toToken r.skipSpace.position] := by
  rw [tokens]
  split
  next hnil => simp [h] at hnil
  next hcons =>
    rw [h, List.cons.injEq] at hcons
    obtain ⟨rfl, rfl⟩ := hcons
    rfl

/-- The tokens start behind the spaces at the front. -/
theorem tokens_congr {r' : Reader} (h : r.skipSpace = r'.skipSpace) : r.tokens = r'.tokens := by
  cases hinput : r'.skipSpace.input with
  | nil => rw [tokens_of_nil (h ▸ hinput), tokens_of_nil hinput, h]
  | cons d ds => rw [tokens_of_cons (h ▸ hinput), tokens_of_cons hinput, h]

/-- A space at the front of the input gives no token. -/
theorem tokens_of_space_cons {c : Char} {cs : List Char} (hc : isSpace c = true)
    (hr : r.input = c :: cs) :
    r.tokens = tokens { r with position := r.position.next c, input := cs } :=
  tokens_congr (by simp [skipSpace, hr, hc])

theorem lexical_of_mem_tokens (r : Reader) : ∀ t ∈ r.tokens.front, t.Lexical := by
  induction r using Reader.tokens.induct with
  | case1 r hnil =>
      rw [tokens_of_nil hnil]
      simp
  | case2 r c cs hcons x hlt ih =>
      rw [tokens_of_cons hcons]
      intro t ht
      rcases List.mem_cons.mp ht with rfl | ht
      · exact lexical_atFront c cs
      · exact ih t ht

end Reader

/-- Every token of a source text has the shape of its kind. -/
theorem lexical_of_mem_tokenize (source : String) : ∀ t ∈ (tokenize source).front, t.Lexical :=
  (Reader.ofSource source).lexical_of_mem_tokens

end Monkey.Token
