import Monkey.Proofs.Token.Layout
import Monkey.Proofs.Token.Spelling

/-! # Longest match

The lexemes of the language fall into classes, each of which is given by its texts alone. Where some
class has a text at the front of the input, the next lexeme is the longest such text; elsewhere it
is illegal. The tokens of a source text are the ones that this rule gives (`tokenization_iff`).
-/

namespace Monkey.Token

/-- The marks of the language and how they are written. -/
def Kind.marks : List (List Char × Kind) :=
  [(['='], assign), (['=', '='], eq), (['!'], bang), (['!', '='], notEq), (['&', '&'], and),
    (['|', '|'], or), (['+'], plus), (['-'], minus), (['*'], asterisk), (['/'], slash),
    (['<'], lt), (['>'], gt), ([','], comma), ([';'], semicolon), (['('], lparen),
    ([')'], rparen), (['{'], lbrace), (['}'], rbrace), (['['], lbracket), ([']'], rbracket)]

/-- A word has the kind that the table of reserved words gives it, or else is an identifier. -/
def Kind.IsOfWord (kind : Kind) (word : String) : Prop :=
  (word, kind) ∈ reserved ∨ kind = ident ∧ ∀ other, (word, other) ∉ reserved

namespace Lexeme

/-- The lexeme is of one of the classes. -/
inductive Classed : Lexeme → Prop
  | mark {text kind} (hmark : (text, kind) ∈ Kind.marks) : Classed ⟨kind, text⟩
  | numeral {text} (hnumeral : IsNumeral text) : Classed ⟨.int, text⟩
  | pointed {text whole fraction} (hpointed : Decimal.Pointed text whole fraction) :
    Classed ⟨.float, text⟩
  | word {text kind} (hword : IsWord text) (hkind : kind.IsOfWord (String.ofList text)) :
    Classed ⟨kind, text⟩
  | quoted {content} (hcontent : '"' ∉ content) :
    Classed ⟨.string, '"' :: (content ++ ['"'])⟩

/-- The lexeme is the longest of a class at the front of the input. If there is none it is illegal:
all of the input if that starts with a quote, and one character otherwise. -/
inductive Longest : List Char → Lexeme → Prop
  | classed {input x} (hclass : x.Classed) (hfront : x.text <+: input)
    (hlongest : ∀ y : Lexeme, y.Classed → y.text <+: input → y.text.length ≤ x.text.length) :
    Longest input x
  | unclosed {cs} (hnone : ∀ y : Lexeme, y.Classed → ¬ y.text <+: '"' :: cs) :
    Longest ('"' :: cs) ⟨.illegal, '"' :: cs⟩
  | unknown {c cs} (hquote : c ≠ '"') (hnone : ∀ y : Lexeme, y.Classed → ¬ y.text <+: c :: cs) :
    Longest (c :: cs) ⟨.illegal, [c]⟩

end Lexeme

/-- The text is the given lexemes, with spaces between them, each of which is the longest at its
place. -/
inductive Tokenization : List Char → List Lexeme → Prop
  | nil {text} (hspace : ∀ c ∈ text, isSpace c = true) : Tokenization text []
  | cons {gap c cs x rest xs} (hspace : ∀ d ∈ gap, isSpace d = true) (hstart : isSpace c = false)
    (hlongest : Lexeme.Longest (c :: cs) x) (hsplit : c :: cs = x.text ++ rest)
    (hrest : Tokenization rest xs) : Tokenization (gap ++ c :: cs) (x :: xs)

/-- The token as it is written, with its kind. -/
def lexeme (t : Token) : Lexeme :=
  ⟨t.kind, t.raw⟩

/-! ## Words -/

theorem Kind.isOfWord_iff {kind : Kind} {word : String} :
    kind.IsOfWord word ↔ kind = ofWord word := by
  have hmem (other : Kind) : (word, other) ∈ reserved ↔ reserved.lookup word = some other := by
    have hreserved : ∀ x ∈ reserved, reserved.lookup x.1 = some x.2 := by decide
    constructor
    · exact hreserved (word, other)
    · intro hlookup
      obtain ⟨earlier, later, htable, -⟩ := List.lookup_eq_some_iff.mp hlookup
      rw [htable]
      simp
  unfold IsOfWord ofWord
  simp only [hmem]
  cases reserved.lookup word with
  | none => simp
  | some other => simp [eq_comm]

namespace Lexeme

variable {c : Char} {cs : List Char} {x y : Lexeme}

/-! ## A text has one class -/

/-- A lexeme of a class is the first lexeme of its own text. -/
theorem Classed.leads (hx : x.Classed) : Leads x [] := by
  cases hx with
  | mark hmark =>
      fin_cases hmark
      all_goals exact ⟨_, _, rfl, rfl, rfl⟩
  | numeral hnumeral => exact leads_numeral hnumeral ends_nil
  | pointed hpointed => exact leads_pointed hpointed ends_nil
  | word hword hkind =>
      rw [Kind.isOfWord_iff.mp hkind]
      exact leads_word hword ends_nil
  | quoted hcontent => exact leads_string hcontent []

theorem Classed.ext (hx : x.Classed) (hy : y.Classed) (htext : x.text = y.text) : x = y := by
  obtain ⟨c, cs, hcons, -, hfront⟩ := hx.leads
  obtain ⟨d, ds, hcons', -, hfront'⟩ := hy.leads
  obtain ⟨rfl, rfl⟩ := List.cons.inj (hcons.symm.trans (htext.trans hcons'))
  exact hfront.symm.trans hfront'

/-! ## The first lexeme of a text -/

/-- Where a mark stands, the lexeme is a mark that is no shorter. -/
theorem classed_of_mark {text : List Char} {kind : Kind} (hmark : (text, kind) ∈ Kind.marks)
    (hfront : text <+: c :: cs) :
    (atFront c cs).Classed ∧ text.length ≤ (atFront c cs).text.length := by
  obtain ⟨rest, hrest⟩ := hfront
  by_cases hshort : (text, kind) ∈ [(['='], Kind.assign), (['!'], Kind.bang)]
  · -- These two are part of a longer mark if an equals sign follows.
    have hlength : 1 ≤ (atFront c cs).text.length :=
      List.length_pos_iff.mpr (taken_atFront c cs).ne_nil
    fin_cases hshort
    all_goals
      cases hrest
      refine ⟨?_, hlength⟩
      rcases rest with _ | ⟨d, ds⟩
      · exact .mark hmark
      · by_cases hd : d = '='
        · subst hd
          exact .mark (by decide)
        · simpa [atFront, hd] using Classed.mark hmark
  · have hsame : atFront c cs = ⟨kind, text⟩ := by
      fin_cases hmark
      all_goals first | exact absurd (by decide) hshort | (cases hrest; rfl)
    rw [hsame]
    exact ⟨.mark hmark, Nat.le_refl _⟩

theorem length_le_takeWhile {p : Char → Bool} {ds input : List Char} (hds : ∀ d ∈ ds, p d = true)
    (hfront : ds <+: input) : ds.length ≤ (input.takeWhile p).length := by
  obtain ⟨rest, rfl⟩ := hfront
  rw [List.takeWhile_append_of_pos hds, List.length_append]
  exact Nat.le_add_right _ _

theorem classed_number (hc : c.isDigit = true) (cs : List Char) : (number (c :: cs)).Classed := by
  have hlexical : ((number (c :: cs)).toToken .start).Lexical := lexical_number hc cs
  revert hlexical
  unfold number
  dsimp only
  split_ifs
  · intro hlexical
    have hnumeral := hlexical.isNumeral rfl
    rw [toToken, literal, String.toList_ofList] at hnumeral
    exact .numeral hnumeral
  · intro hlexical
    obtain ⟨whole, fraction, hpointed⟩ := hlexical.pointed rfl
    rw [toToken, literal, String.toList_ofList] at hpointed
    exact .pointed hpointed

/-- A number has all the digits in front of the point. -/
theorem length_takeWhile_le_number (cs : List Char) :
    (cs.takeWhile Char.isDigit).length ≤ (number cs).text.length := by
  unfold number
  dsimp only
  split_ifs
  · exact Nat.le_refl _
  · simp

/-- A number has all the digits on both sides of the point. -/
theorem length_pointed_le_number {text whole fraction input : List Char}
    (hpointed : Decimal.Pointed text whole fraction) (hfront : text <+: input) :
    text.length ≤ (number input).text.length := by
  obtain ⟨rest, rfl⟩ := hfront
  have hpoint : ∀ d ∈ ('.' :: (fraction ++ rest)).head?, d.isDigit = false := by
    rintro d ⟨⟩
    decide
  have hfraction := length_le_takeWhile hpointed.isDigit_fraction (List.prefix_append fraction rest)
  have hne : (fraction ++ rest).takeWhile Char.isDigit ≠ [] := by
    have hpos := List.length_pos_iff.mpr hpointed.fraction_ne_nil
    exact List.length_pos_iff.mp (Nat.lt_of_lt_of_le hpos hfraction)
  have hinput : text ++ rest = whole ++ '.' :: (fraction ++ rest) := by
    rw [hpointed.eq, List.append_assoc, List.cons_append]
  unfold number
  rw [hinput, Text.takeWhile_append_of_boundary hpointed.isDigit_whole hpoint,
    Text.dropWhile_append_of_boundary hpointed.isDigit_whole hpoint]
  simp only [List.isEmpty_iff, hne, if_false]
  rw [hpointed.eq]
  simp only [List.length_append, List.length_cons]
  omega

theorem classed_word (hc : Text.isAlphabetic c = true) (cs : List Char) :
    (word c cs).Classed :=
  .word ⟨c, _, rfl, hc, fun _ hd => List.mem_takeWhile_imp hd⟩ (Kind.isOfWord_iff.mpr rfl)

/-- Where a lexeme of some class stands, the first lexeme is of a class and no shorter. -/
theorem Classed.le_atFront (hx : x.Classed) (hfront : x.text <+: c :: cs) :
    (atFront c cs).Classed ∧ x.text.length ≤ (atFront c cs).text.length := by
  cases hx with
  | mark hmark => exact classed_of_mark hmark hfront
  | @numeral text hnumeral =>
      obtain ⟨d, ds, rfl⟩ := List.exists_cons_of_ne_nil hnumeral.1
      obtain ⟨rfl, -⟩ := List.cons_prefix_cons.mp hfront
      have hd := hnumeral.2 d List.mem_cons_self
      rw [atFront_of_isAlphanumeric (isAlphanumeric_of_isDigit hd), if_pos hd]
      exact ⟨classed_number hd cs,
        (length_le_takeWhile hnumeral.2 hfront).trans (length_takeWhile_le_number _)⟩
  | @pointed text whole fraction hpointed =>
      obtain ⟨d, ds, hwhole⟩ := List.exists_cons_of_ne_nil hpointed.whole_ne_nil
      have hd := hpointed.isDigit_whole d (by simp [hwhole])
      have hcons : text = d :: (ds ++ '.' :: fraction) := by
        rw [hpointed.eq, hwhole, List.cons_append]
      obtain ⟨rfl, -⟩ := List.cons_prefix_cons.mp (hcons ▸ hfront)
      rw [atFront_of_isAlphanumeric (isAlphanumeric_of_isDigit hd), if_pos hd]
      exact ⟨classed_number hd cs, length_pointed_le_number hpointed hfront⟩
  | word hword =>
      obtain ⟨d, ds, rfl, hd, hds⟩ := hword
      obtain ⟨rfl, hlater⟩ := List.cons_prefix_cons.mp hfront
      rw [atFront_of_isAlphanumeric (Text.isAlphanumeric_of_isAlphabetic hd),
        isDigit_of_isAlphabetic hd, if_neg Bool.false_ne_true, if_pos hd]
      exact ⟨classed_word hd cs, Nat.succ_le_succ (length_le_takeWhile hds hlater)⟩
  | @quoted content hcontent =>
      obtain ⟨rest, hrest⟩ := hfront
      obtain ⟨d, ds, htext, -, hsame⟩ := leads_string hcontent rest
      obtain ⟨rfl, rfl⟩ := List.cons.inj htext
      obtain rfl := (List.cons.inj hrest).1
      have hcs : content ++ ['"'] ++ rest = cs := (List.cons.inj hrest).2
      rw [← hcs, hsame]
      exact ⟨.quoted hcontent, Nat.le_refl _⟩

/-- A first lexeme without a class is illegal. -/
theorem atFront_of_not_classed (hclass : ¬ (atFront c cs).Classed) :
    atFront c cs = if c = '"' then ⟨.illegal, c :: cs⟩ else ⟨.illegal, [c]⟩ := by
  revert hclass
  unfold atFront
  split
  case h_21 =>
    intro hclass
    rw [if_pos rfl]
    rcases quoted_cases cs with hopen | ⟨content, hcontent, hclosed⟩
    · exact hopen
    · exact absurd (hclosed ▸ .quoted hcontent) hclass
  case h_22 =>
    split_ifs with hdigit hletter
    · exact fun hclass => absurd (classed_number hdigit cs) hclass
    · exact fun hclass => absurd (classed_word hletter cs) hclass
    · exact fun _ => rfl
  all_goals exact fun hclass => absurd (.mark (by decide)) hclass

/-- The first lexeme of a text is the longest there. -/
theorem longest_iff : Longest (c :: cs) x ↔ x = atFront c cs := by
  have htaken := taken_atFront c cs
  constructor
  · intro hlongest
    generalize hinput : c :: cs = input at hlongest
    cases hlongest with
    | classed hclass hfront hlongest =>
        subst hinput
        obtain ⟨hclass', hle⟩ := hclass.le_atFront hfront
        have hge := hlongest _ hclass' htaken.front
        refine hclass.ext hclass' ?_
        exact (List.prefix_of_prefix_length_le hfront htaken.front hle).eq_of_length_le hge
    | unclosed hnone =>
        obtain ⟨rfl, rfl⟩ := List.cons.inj hinput
        rw [atFront_of_not_classed fun hclass => hnone _ hclass htaken.front, if_pos rfl]
    | unknown hquote hnone =>
        obtain ⟨rfl, rfl⟩ := List.cons.inj hinput
        rw [atFront_of_not_classed fun hclass => hnone _ hclass htaken.front, if_neg hquote]
  · rintro rfl
    by_cases hclass : (atFront c cs).Classed
    · exact .classed hclass htaken.front fun y hy hfront => (hy.le_atFront hfront).2
    · have hnone (y : Lexeme) (hy : y.Classed) : ¬ y.text <+: c :: cs :=
        fun hfront => hclass (hy.le_atFront hfront).1
      rw [atFront_of_not_classed hclass]
      split_ifs with hquote
      · subst hquote
        exact .unclosed hnone
      · exact .unknown hquote hnone

end Lexeme

/-! ## All tokens of a text -/

namespace Reader

theorem tokenization_iff_of_nil {r : Reader} (hnil : r.skipSpace.input = []) {xs : List Lexeme} :
    Tokenization r.input xs ↔ [] = xs := by
  have hspace : ∀ c ∈ r.input, isSpace c = true := List.dropWhile_eq_nil_iff.mp hnil
  constructor
  · generalize r.input = input at hspace
    rintro (_ | @⟨gap, c, cs, x, rest, xs, -, hstart, -⟩)
    · rfl
    · rw [hspace c (by simp)] at hstart
      cases hstart
  · rintro rfl
    exact .nil hspace

theorem tokenization_iff_of_cons {r : Reader} {c : Char} {cs : List Char}
    (hcons : r.skipSpace.input = c :: cs) {xs : List Lexeme} :
    Tokenization r.input xs ↔ ∃ ys, xs = Lexeme.atFront c cs :: ys ∧
      Tokenization (r.skipSpace.consume (Lexeme.atFront c cs) cs).input ys := by
  have hinput : r.input = r.input.takeWhile isSpace ++ c :: cs := by
    rw [← hcons]
    exact List.takeWhile_append_dropWhile.symm
  have hconsume := consume_input (Lexeme.taken_atFront c cs) r.skipSpace
  have hstart : isSpace c = false := by
    have hhead := List.head?_dropWhile_not isSpace r.input
    rw [show r.input.dropWhile isSpace = c :: cs from hcons] at hhead
    simpa using hhead
  constructor
  · generalize hwhole : r.input = input
    rintro (⟨hspace⟩ | @⟨gap, d, ds, x, rest, xs, hspace, hstart', hlongest, hsplit, hrest⟩)
    · have hc := hspace c (by rw [← hwhole, hinput]; simp)
      rw [hstart] at hc
      cases hc
    · have hboundary : ∀ e ∈ (d :: ds).head?, isSpace e = false := by
        rintro e ⟨⟩
        exact hstart'
      have hdrop := Text.dropWhile_append_of_boundary hspace hboundary
      rw [← hwhole] at hdrop
      obtain ⟨rfl, rfl⟩ := List.cons.inj (hcons.symm.trans hdrop)
      obtain rfl := Lexeme.longest_iff.mp hlongest
      rw [← hconsume] at hsplit
      rw [← List.append_cancel_left hsplit] at hrest
      exact ⟨xs, rfl, hrest⟩
  · rintro ⟨ys, rfl, hys⟩
    rw [hinput]
    exact .cons (fun d hd => List.mem_takeWhile_imp hd) hstart (Lexeme.longest_iff.mpr rfl)
      hconsume.symm hys

theorem lexeme_toToken (c : Char) (cs : List Char) (position : Position) :
    ((Lexeme.atFront c cs).toToken position).lexeme = Lexeme.atFront c cs := by
  rw [lexeme, (Lexeme.taken_atFront c cs).raw_toToken]
  rfl

theorem tokenization_iff_tokens (r : Reader) (xs : List Lexeme) :
    Tokenization r.input xs ↔ r.tokens.front.map lexeme = xs := by
  induction r using Reader.tokens.induct generalizing xs with
  | case1 r hnil =>
      rw [tokens_of_nil hnil, tokenization_iff_of_nil hnil, List.map_nil]
  | case2 r c cs hcons x hlt ih =>
      rw [tokens_of_cons hcons, tokenization_iff_of_cons hcons, Tokens.front_prepend,
        List.singleton_append, List.map_cons, lexeme_toToken]
      constructor
      · rintro ⟨ys, rfl, hys⟩
        rw [(ih ys).mp hys]
      · rintro rfl
        exact ⟨_, rfl, (ih _).mpr rfl⟩

end Reader

/-- The tokens of a source text are its only tokenization by longest match. -/
theorem tokenization_iff (source : String) (xs : List Lexeme) :
    Tokenization source.toList xs ↔ (tokenize source).front.map lexeme = xs :=
  (Reader.ofSource source).tokenization_iff_tokens xs

end Monkey.Token
