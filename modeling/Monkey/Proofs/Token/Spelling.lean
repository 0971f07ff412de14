import Mathlib
import Monkey.Proofs.Token

/-! # Text that is read as given tokens

Text with the shape of a token is read as that token wherever the next character does not continue
it (`Leads`). `Spells` extends this to text of any number of tokens, as a condition on the tokens
that are read: positions are left out, since no grammar looks at them.
-/

namespace Monkey.Token

variable {rest cs ds : List Char}

/-! ## Single tokens -/

/-- The text of the lexeme, followed by the rest, starts with the lexeme. -/
def Leads (x : Lexeme) (rest : List Char) : Prop :=
  ∃ c cs, x.text = c :: cs ∧ isSpace c = false ∧ Lexeme.atFront c (cs ++ rest) = x

/-- The next character continues neither a word nor a number. -/
def Ends (rest : List Char) : Prop :=
  ∀ c ∈ rest.head?, Text.isAlphanumeric c = false ∧ c ≠ '.'

theorem ends_nil : Ends [] := by
  simp [Ends]

theorem ends_cons {c : Char} (hword : Text.isAlphanumeric c = false) (hpoint : c ≠ '.') :
    Ends (c :: rest) := by
  rintro d hd
  cases hd
  exact ⟨hword, hpoint⟩

theorem isAlphanumeric_of_isDigit {c : Char} (hc : c.isDigit = true) :
    Text.isAlphanumeric c = true := by
  have hle := Text.toNat_le_of_isDigit hc
  have hascii : c.toNat < 128 := by omega
  simp [Text.isAlphanumeric, Text.isNumeric, hascii, hc]

theorem Ends.isDigit (h : Ends rest) : ∀ c ∈ rest.head?, c.isDigit = false := by
  intro c hc
  rw [Bool.eq_false_iff]
  intro hdigit
  have hword := isAlphanumeric_of_isDigit hdigit
  simp [(h c hc).1] at hword

/-- A character of a word is no mark and no space. -/
theorem ne_of_isAlphanumeric {c d : Char} (hc : Text.isAlphanumeric c = true)
    (hd : Text.isAlphanumeric d = false) : c ≠ d := by
  rintro rfl
  simp [hc] at hd

/-- At a character that starts a word or a number, the front is one. -/
theorem atFront_of_isAlphanumeric {c : Char} (hc : Text.isAlphanumeric c = true) (cs : List Char) :
    Lexeme.atFront c cs =
      if c.isDigit then Lexeme.number (c :: cs)
      else if Text.isAlphabetic c then Lexeme.word c cs
      else ⟨.illegal, [c]⟩ := by
  have hne : ∀ d : Char, Text.isAlphanumeric d = false → c ≠ d := fun d => ne_of_isAlphanumeric hc
  unfold Lexeme.atFront
  split
  case h_22 => rfl
  all_goals exact absurd rfl (hne _ (by decide))

theorem isSpace_of_isAlphanumeric {c : Char} (hc : Text.isAlphanumeric c = true) :
    isSpace c = false := by
  have hne : ∀ d : Char, Text.isAlphanumeric d = false → c ≠ d := fun d => ne_of_isAlphanumeric hc
  simp [isSpace, hne ' ' (by decide), hne '\t' (by decide), hne '\r' (by decide),
    hne '\n' (by decide)]

theorem le_toNat_of_isAlpha {c : Char} (hc : c.isAlpha = true) : 65 ≤ c.toNat := by
  simp only [Char.isAlpha, Char.isUpper, Char.isLower, Bool.or_eq_true, Bool.and_eq_true,
    decide_eq_true_eq] at hc
  rcases hc with ⟨hge, -⟩ | ⟨hge, -⟩
  · exact UInt32.le_iff_toNat_le.mp hge
  · exact Nat.le_trans (by decide) (UInt32.le_iff_toNat_le.mp hge)

theorem isDigit_of_isAlphabetic {c : Char} (hc : Text.isAlphabetic c = true) :
    c.isDigit = false := by
  rw [Bool.eq_false_iff]
  intro hdigit
  have hle := Text.toNat_le_of_isDigit hdigit
  have hascii : c.toNat < 128 := by omega
  rw [Text.isAlphabetic, if_pos hascii] at hc
  have hge := le_toNat_of_isAlpha hc
  omega

/-- A word is read as one token. -/
theorem leads_word (h : IsWord cs) (hrest : Ends rest) :
    Leads ⟨Kind.ofWord (String.ofList cs), cs⟩ rest := by
  obtain ⟨c, ds, rfl, hc, hds⟩ := h
  have hword := Text.isAlphanumeric_of_isAlphabetic hc
  refine ⟨c, ds, rfl, isSpace_of_isAlphanumeric hword, ?_⟩
  have htake : (ds ++ rest).takeWhile Text.isAlphanumeric = ds :=
    Text.takeWhile_append_of_boundary hds fun d hd => (hrest d hd).1
  rw [atFront_of_isAlphanumeric hword, isDigit_of_isAlphabetic hc]
  simp [Lexeme.word, hc, htake]

theorem leads_name {name : String} (h : IsName name) (hrest : Ends rest) :
    Leads ⟨.ident, name.toList⟩ rest := by
  have hleads := leads_word h.isWord hrest
  rw [String.ofList_toList, h.ofWord_eq] at hleads
  exact hleads

/-- A numeral is read as one token. -/
theorem leads_numeral (h : IsNumeral cs) (hrest : Ends rest) : Leads ⟨.int, cs⟩ rest := by
  obtain ⟨c, ds, rfl⟩ := List.exists_cons_of_ne_nil h.1
  have hc := h.2 c (by simp)
  have hword := isAlphanumeric_of_isDigit hc
  refine ⟨c, ds, rfl, isSpace_of_isAlphanumeric hword, ?_⟩
  rw [atFront_of_isAlphanumeric hword, if_pos hc, ← List.cons_append]
  unfold Lexeme.number
  rw [Text.takeWhile_append_of_boundary h.2 hrest.isDigit,
    Text.dropWhile_append_of_boundary h.2 hrest.isDigit]
  split
  next more => exact absurd rfl (hrest '.' rfl).2
  next => rfl

/-- A number with a point is read as one token. -/
theorem leads_pointed {whole fraction : List Char} (h : Decimal.Pointed cs whole fraction)
    (hrest : Ends rest) : Leads ⟨.float, cs⟩ rest := by
  obtain ⟨c, ds, hwhole⟩ := List.exists_cons_of_ne_nil h.whole_ne_nil
  have hc := h.isDigit_whole c (by simp [hwhole])
  have hword := isAlphanumeric_of_isDigit hc
  have hpoint : ∀ d ∈ ('.' :: (fraction ++ rest)).head?, d.isDigit = false := by
    intro d hd
    cases hd
    decide
  refine ⟨c, ds ++ '.' :: fraction, ?_, isSpace_of_isAlphanumeric hword, ?_⟩
  · rw [h.eq, hwhole, List.cons_append]
  · have hinput : c :: (ds ++ '.' :: fraction ++ rest) = whole ++ '.' :: (fraction ++ rest) := by
      simp [hwhole]
    rw [atFront_of_isAlphanumeric hword, if_pos hc, hinput]
    unfold Lexeme.number
    rw [Text.takeWhile_append_of_boundary h.isDigit_whole hpoint,
      Text.dropWhile_append_of_boundary h.isDigit_whole hpoint]
    simp only [Text.takeWhile_append_of_boundary h.isDigit_fraction hrest.isDigit]
    rw [if_neg, h.eq]
    simpa using h.fraction_ne_nil

/-- Text in quotes is read as one token. -/
theorem leads_string (h : '"' ∉ cs) (rest : List Char) :
    Leads ⟨.string, '"' :: (cs ++ ['"'])⟩ rest := by
  refine ⟨'"', cs ++ ['"'], rfl, rfl, ?_⟩
  change Lexeme.quoted (cs ++ ['"'] ++ rest) = _
  have hcs : ∀ c ∈ cs, (decide (c ≠ '"')) = true := by
    intro c hc
    rw [decide_eq_true_eq]
    rintro rfl
    exact h hc
  have hquote : ∀ c ∈ ('"' :: rest).head?, (decide (c ≠ '"')) = false := by
    intro c hc
    cases hc
    decide
  unfold Lexeme.quoted
  rw [List.append_assoc, List.singleton_append, Text.takeWhile_append_of_boundary hcs hquote,
    Text.dropWhile_append_of_boundary hcs hquote]
  rfl

/-- Behind a quote there is text up to another quote, or else all of it is illegal. -/
theorem quoted_cases (cs : List Char) :
    Lexeme.quoted cs = ⟨.illegal, '"' :: cs⟩ ∨
      ∃ content, '"' ∉ content ∧ Lexeme.quoted cs = ⟨.string, '"' :: (content ++ ['"'])⟩ := by
  have hcontent : '"' ∉ cs.takeWhile (· ≠ '"') := fun hmem => by
    simpa using List.mem_takeWhile_imp hmem
  have hsplit := List.takeWhile_append_dropWhile (p := (· ≠ '"')) (l := cs)
  unfold Lexeme.quoted
  revert hsplit
  cases cs.dropWhile (· ≠ '"') with
  | nil =>
      intro hsplit
      rw [List.append_nil] at hsplit
      exact .inl (by simp only [hsplit])
  | cons quote more => exact fun _ => .inr ⟨_, hcontent, rfl⟩

theorem literal_string (cs : List Char) :
    Lexeme.literal ⟨.string, '"' :: (cs ++ ['"'])⟩ = String.ofList cs := by
  simp [Lexeme.literal]

namespace Reader

variable {r : Reader}

/-- A lexeme at the front of the input gives a token of its kind and leaves the rest. -/
theorem tokens_of_leads {x : Lexeme} (h : Leads x rest) (hr : r.input = x.text ++ rest) :
    ∃ (t : Token) (r' : Reader), t.kind = x.kind ∧ t.literal = x.literal ∧
      r.tokens = r'.tokens.prepend [t] ∧ r'.input = rest := by
  obtain ⟨c, cs, htext, hspace, hfront⟩ := h
  have hinput : r.skipSpace.input = c :: (cs ++ rest) := by
    simp [skipSpace, hr, htext, hspace]
  refine ⟨x.toToken r.skipSpace.position, r.skipSpace.consume x (cs ++ rest), rfl, rfl, ?_, ?_⟩
  · rw [tokens_of_cons hinput, hfront]
  · simp [consume, htext]

/-- A space at the front of the input gives no token. -/
theorem tokens_of_space {c : Char} (hc : isSpace c = true) (hr : r.input = c :: rest) :
    ∃ r' : Reader, r.tokens = r'.tokens ∧ r'.input = rest :=
  ⟨_, tokens_of_space_cons hc hr, rfl⟩

end Reader

/-! ## Any number of tokens -/

/-- The text, followed by the rest, is read as tokens that meet the condition. -/
def Spells (cs rest : List Char) (P : List Token → Prop) : Prop :=
  ∀ r : Reader, r.input = cs ++ rest →
    ∃ (ts : List Token) (r' : Reader),
      r.tokens = r'.tokens.prepend ts ∧ r'.input = rest ∧ P ts

variable {P Q : List Token → Prop}

theorem Spells.nil (h : P []) : Spells [] rest P :=
  fun r hr => ⟨[], r, rfl, hr, h⟩

theorem Spells.mono (h : Spells cs rest P) (hPQ : ∀ ts, P ts → Q ts) : Spells cs rest Q := by
  intro r hr
  obtain ⟨ts, r', htokens, hr', hts⟩ := h r hr
  exact ⟨ts, r', htokens, hr', hPQ ts hts⟩

/-- Text with a lexeme in front. -/
theorem Spells.token {kind : Kind} {text : List Char} (hx : Leads ⟨kind, text⟩ (cs ++ rest))
    (h : ∀ t : Token, t.kind = kind → t.literal = Lexeme.literal ⟨kind, text⟩ →
      Spells cs rest fun ts => P (t :: ts)) : Spells (text ++ cs) rest P := by
  intro r hr
  rw [List.append_assoc] at hr
  obtain ⟨t, r', hkind, hliteral, htokens, hr'⟩ := r.tokens_of_leads hx hr
  obtain ⟨ts, r'', htokens', hr'', hts⟩ := h t hkind hliteral r' hr'
  exact ⟨t :: ts, r'', by rw [htokens, htokens']; rfl, hr'', hts⟩

/-- Text with a space in front. -/
theorem Spells.space {c : Char} (hc : isSpace c = true) (h : Spells cs rest P) :
    Spells (c :: cs) rest P := by
  intro r hr
  obtain ⟨r', htokens, hr'⟩ := r.tokens_of_space hc hr
  obtain ⟨ts, r'', htokens', hr'', hts⟩ := h r' hr'
  exact ⟨ts, r'', by rw [htokens, htokens'], hr'', hts⟩

theorem Spells.spaces {gap : List Char} (hgap : ∀ c ∈ gap, isSpace c = true)
    (h : Spells cs rest P) : Spells (gap ++ cs) rest P := by
  induction gap with
  | nil => exact h
  | cons c gap ih =>
      obtain ⟨hc, hgap⟩ := List.forall_mem_cons.mp hgap
      exact .space hc (ih hgap)

/-- Text with other text in front. -/
theorem Spells.append (h : Spells cs (ds ++ rest) Q)
    (h' : ∀ us, Q us → Spells ds rest fun ts => P (us ++ ts)) : Spells (cs ++ ds) rest P := by
  intro r hr
  rw [List.append_assoc] at hr
  obtain ⟨us, r', htokens, hr', hus⟩ := h r hr
  obtain ⟨ts, r'', htokens', hr'', hts⟩ := h' us hus r' hr'
  exact ⟨us ++ ts, r'', by rw [htokens, htokens', Tokens.prepend_prepend], hr'', hts⟩

/-- The tokens of a whole source text meet the condition. -/
theorem Spells.tokenize {source : String} (h : Spells source.toList [] P) :
    P (tokenize source).front := by
  obtain ⟨ts, r', htokens, hr', hts⟩ := h (.ofSource source) (List.append_nil _).symm
  have hnil : r'.tokens.front = [] := by
    rw [Reader.tokens_of_nil (by simp [Reader.skipSpace, hr'])]
  rw [Token.tokenize, htokens, Tokens.front_prepend, hnil, List.append_nil]
  exact hts

end Monkey.Token
