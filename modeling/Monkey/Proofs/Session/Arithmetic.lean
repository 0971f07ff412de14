import Monkey.Proofs.Arithmetic.Reading
import Monkey.Proofs.Program.RoundTrip
import Monkey.Proofs.Session.Sources
import Monkey.Proofs.Token.Respacing

/-! # Sources that are integer arithmetic

A source text made of integer literals, signs, the four operations and parentheses is rejected if a
literal is too large. Otherwise a session evaluates it to the exact value, or to the error of the
first operation that has no value or one that is too large.
-/

namespace Monkey

open Token

namespace Arithmetic

def Op.mark : Op → Char
  | add => '+'
  | subtract => '-'
  | multiply => '*'
  | divide => '/'

/-- The text is an expression over integer literals that denote the given numbers. Spaces may stand
between all its parts. -/
inductive Source : List Char → List Nat → Prop
  | literal {digits : List Char} (hne : digits ≠ []) (hdigits : ∀ c ∈ digits, c.isDigit = true) :
    Source digits [Decimal.digitsValue digits]
  | negate {cs : List Char} {ns : List Nat} (h : Source cs ns) : Source ('-' :: cs) ns
  | binary {ls rs : List Char} {ns ms : List Nat} (op : Op) (hl : Source ls ns)
    (hr : Source rs ms) : Source (ls ++ op.mark :: rs) (ns ++ ms)
  | group {cs : List Char} {ns : List Nat} (h : Source cs ns) : Source ('(' :: (cs ++ [')'])) ns
  | spaceBefore {c : Char} {cs : List Char} {ns : List Nat} (hc : c ∈ [' ', '\t', '\r', '\n'])
    (h : Source cs ns) : Source (c :: cs) ns
  | spaceBehind {c : Char} {cs : List Char} {ns : List Nat} (hc : c ∈ [' ', '\t', '\r', '\n'])
    (h : Source cs ns) : Source (cs ++ [c]) ns

variable {cs rest : List Char} {ns : List Nat}

theorem Op.atFront_mark (op : Op) (cs : List Char) :
    Lexeme.atFront op.mark cs = ⟨op.kind, [op.mark]⟩ := by
  cases op <;> rfl

theorem Op.ends_mark (op : Op) : Token.Ends (op.mark :: cs) := by
  cases op <;> exact ends_cons (by decide) (by decide)

theorem ends_space {c : Char} (hc : c ∈ [' ', '\t', '\r', '\n']) : Token.Ends (c :: cs) := by
  refine ends_cons (isAlphanumeric_of_isSpace (isSpace_of_mem hc)) ?_
  rintro rfl
  simp at hc

/-- An expression in the text is one in the tokens, with the same numbers. -/
theorem Source.spells (h : Source cs ns) (hrest : Token.Ends rest) :
    Spells cs rest fun ts => Written ts ∧ numbers ts = ns := by
  induction h generalizing rest with
  | @literal digits hne hdigits =>
      rw [← List.append_nil digits]
      refine .token (leads_numeral ⟨hne, hdigits⟩ hrest) fun t hkind hliteral => .nil ?_
      have hnumber : t.number = Decimal.digitsValue digits := by
        simp [Token.number, hliteral, Lexeme.literal]
      exact ⟨.literal hkind, by simp [numbers, hkind, hnumber]⟩
  | negate h ih =>
      apply Spells.mark rfl rfl
      intro t hkind
      refine (ih hrest).mono ?_
      rintro ts ⟨hts, rfl⟩
      exact ⟨.negate hkind hts, by simp [numbers, hkind]⟩
  | binary op hl hr ihl ihr =>
      apply Spells.append (ihl op.ends_mark)
      rintro ls ⟨hls, rfl⟩
      apply Spells.mark (by cases op <;> rfl) (op.atFront_mark _)
      intro t hkind
      have hop : op.kind ≠ .int := by cases op <;> decide
      refine (ihr hrest).mono ?_
      rintro rs ⟨hrs, rfl⟩
      exact ⟨.binary op hls hkind hrs, by simp [numbers, hkind, hop]⟩
  | group h ih =>
      apply Spells.mark rfl rfl
      intro opening hopen
      apply Spells.append (ih (ends_cons (by decide) (by decide)))
      rintro ts ⟨hts, rfl⟩
      apply Spells.mark rfl rfl
      intro closing hclose
      exact .nil ⟨.group hopen hts hclose, by simp [numbers, hopen, hclose]⟩
  | spaceBefore hc h ih => exact .space (isSpace_of_mem hc) (ih hrest)
  | spaceBehind hc h ih =>
      apply Spells.append (ih (ends_space hc))
      intro ts hts
      refine .space (isSpace_of_mem hc) (.nil ?_)
      rwa [List.append_nil]

variable {source : String}

theorem Source.exists_derives (h : Source source.toList ns) :
    (∃ p a, Derives p (tokenize source).front a) ∧ numbers (tokenize source).front = ns := by
  obtain ⟨hwritten, hnumbers⟩ := Spells.tokenize (h.spells ends_nil)
  exact ⟨hwritten.flat.derives, hnumbers⟩

/-- A source with a literal that is too large has the first such literal as its diagnostic. -/
theorem Source.parse_of_exceeds (h : Source source.toList ns)
    (hlarge : ∃ n ∈ ns, 9223372036854775807 < n) :
    ∃ large, (tokenize source).front.find? oversized = some large ∧
      parse source = ⟨[], [invalid large]⟩ := by
  obtain ⟨⟨p, a, hderives⟩, hnumbers⟩ := h.exists_derives
  rw [← hnumbers, ← exists_oversized_iff] at hlarge
  obtain ⟨large, hfirst⟩ := Option.isSome_iff_exists.mp (List.find?_isSome.mpr hlarge)
  have hparse := hderives.parse_eq
  rw [hfirst] at hparse
  exact ⟨large, hfirst, hparse⟩

/-- A source all of whose literals fit is read as the tree that precedence gives it. -/
theorem Source.parse_of_fits (h : Source source.toList ns)
    (hfits : ∀ n ∈ ns, n ≤ 9223372036854775807) {p : Precedence} {a : Arithmetic}
    (hderives : Derives p (tokenize source).front a) : parse source = ⟨[.expr a.toExpr], []⟩ := by
  have hnone : (tokenize source).front.find? oversized = none := by
    rw [List.find?_eq_none]
    intro t ht hlarge
    obtain ⟨n, hn, hexceeds⟩ := exists_oversized_iff.mp ⟨t, ht, hlarge⟩
    rw [h.exists_derives.2] at hn
    exact absurd (hfits n hn) (Nat.not_le.mpr hexceeds)
  have hparse := hderives.parse_eq
  rwa [hnone] at hparse

/-- Parsing complains of an integer exactly if a literal is too large. -/
theorem Source.invalidInteger_iff (h : Source source.toList ns) :
    (∃ d ∈ (parse source).diagnostics, ∃ literal, d.cause = .invalidInteger literal) ↔
      ∃ n ∈ ns, 9223372036854775807 < n := by
  constructor
  · rintro ⟨d, hd, -⟩
    by_contra hnone
    obtain ⟨p, a, hderives⟩ := h.exists_derives.1
    simp [h.parse_of_fits (by simpa using hnone) hderives] at hd
  · intro hlarge
    obtain ⟨large, -, hparse⟩ := h.parse_of_exceeds hlarge
    exact ⟨invalid large, by simp [hparse], large.literal, rfl⟩

end Arithmetic

namespace Session

open Arithmetic

/-- With enough fuel a session comes to the verdict on the one expression of a source. -/
theorem exists_run_of_verdict {source : String} {a : Arithmetic} {value : Value}
    (hparse : parse source = ⟨[.expr a.toExpr], []⟩) (hverdict : a.Verdict value)
    (session : Session) (world : World)
    (hends : (session.plan world (.expr session.top a.toExpr)).Ends (.one value) world) :
    ∃ enough, ∀ fuel, enough ≤ fuel →
      (session.evalSource fuel source).run world = some (.ok value, world) := by
  have hprogram : (session.plan world (.program session.top [.expr a.toExpr])).Ends (.one value)
      world := by
    obtain ⟨n, rfl⟩ | ⟨message, rfl⟩ := hverdict.cases_value
    · exact .call (.call (.call hends .done) (.call .done .done)) .done
    · exact .call (.call (.call hends .done) .done) .done
  obtain ⟨enough, hrun⟩ := exists_run_of_ends hprogram
  refine ⟨enough, fun fuel hle => ?_⟩
  rw [run_evalSource (by rw [hparse]), hparse, hrun fuel hle]
  rfl

/-- Integer arithmetic is exact or fails visibly. -/
theorem arithmetic_exact_or_fails {source : String} {ns : List Nat}
    (hsource : Source source.toList ns) :
    ((∃ d ∈ (parse source).diagnostics, ∃ literal, d.cause = .invalidInteger literal) ↔
      ∃ n ∈ ns, 9223372036854775807 < n) ∧
    ((∃ n ∈ ns, 9223372036854775807 < n) →
      ∃ large, (tokenize source).front.find? oversized = some large ∧
        parse source = ⟨[], [invalid large]⟩ ∧
        ∀ (session : Session) (world : World) (fuel : Nat),
          (session.evalSource fuel source).run world = some (.error [invalid large], world)) ∧
    ((∀ n ∈ ns, n ≤ 9223372036854775807) →
      (∃ p a, Derives p (tokenize source).front a) ∧
      ∀ p a, Derives p (tokenize source).front a →
        a.literals = ns ∧ parse source = ⟨[.expr a.toExpr], []⟩ ∧
        ∃ value,
          (∀ (session : Session) (world : World), ∃ enough, ∀ fuel, enough ≤ fuel →
            (session.evalSource fuel source).run world = some (.ok value, world)) ∧
          (∀ n, value = .integer n ↔ (∀ b ∈ a.subterms, b.Fits) ∧ a.value? = some n.toInt) ∧
          ∀ b, a.firstFailure? = some b →
            value = .error
              (if b.divisor? = some 0 then "division by zero" else "integer overflow")) := by
  refine ⟨hsource.invalidInteger_iff, fun hlarge => ?_, fun hfits => ?_⟩
  · obtain ⟨large, hfirst, hparse⟩ := hsource.parse_of_exceeds hlarge
    refine ⟨large, hfirst, hparse, fun session world fuel => ?_⟩
    rw [run_evalSource_of_rejected (by simp [hparse]), hparse]
  · obtain ⟨hexists, hnumbers⟩ := hsource.exists_derives
    refine ⟨hexists, fun p a hderives => ?_⟩
    have hliterals : a.literals = ns := hderives.literals_eq.trans hnumbers
    have hparse := hsource.parse_of_fits hfits hderives
    obtain ⟨value, hverdict, hends⟩ := a.exists_verdict (hliterals ▸ hfits)
    refine ⟨hliterals, hparse, value, fun session world => ?_, hverdict.eq_integer_iff,
      fun b => hverdict.eq_error⟩
    exact exists_run_of_verdict hparse hverdict session world (hends _ _ _)

/-- A division by zero that shows only when its divisor has been evaluated. -/
theorem hidden_division_by_zero :
    Source "7 / (2-02)".toList [7, 2, 2] ∧
      ∀ (session : Session) (world : World), ∃ enough, ∀ fuel, enough ≤ fuel →
        (session.evalSource fuel "7 / (2-02)").run world =
          some (.ok (.error "division by zero"), world) := by
  have hsource : Source "7 / (2-02)".toList [7, 2, 2] := by
    have hdigits (digits : List Char) (hne : digits ≠ []) (h : digits.all Char.isDigit = true) :
        Source digits [Decimal.digitsValue digits] := .literal hne (List.all_eq_true.mp h)
    have hleft : Source ['7', ' '] [7] :=
      .spaceBehind (by decide) (hdigits ['7'] (by simp) rfl)
    have hdivisor : Source ['2', '-', '0', '2'] [2, 2] :=
      .binary .subtract (hdigits ['2'] (by simp) rfl) (hdigits ['0', '2'] (by simp) rfl)
    have hright : Source [' ', '(', '2', '-', '0', '2', ')'] [2, 2] :=
      .spaceBefore (by decide) (.group hdivisor)
    exact .binary .divide hleft hright
  have htokens : (tokenize "7 / (2-02)").front =
      [⟨.int, "7", ⟨1, 1⟩⟩, ⟨.slash, "/", ⟨1, 3⟩⟩, ⟨.lparen, "(", ⟨1, 5⟩⟩, ⟨.int, "2", ⟨1, 6⟩⟩,
        ⟨.minus, "-", ⟨1, 7⟩⟩, ⟨.int, "02", ⟨1, 8⟩⟩, ⟨.rparen, ")", ⟨1, 10⟩⟩] := by
    decide +kernel
  have hderives : Derives .product (tokenize "7 / (2-02)").front
      (.binary .divide (.literal 7) (.binary .subtract (.literal 2) (.literal 2))) := by
    rw [htokens]
    have hnumber (text : String) (position : Position) :
        Derives .unary [⟨.int, text, position⟩]
          (.literal (Token.number ⟨.int, text, position⟩)) := .literal rfl
    have hdivisor := Derives.binary (t := ⟨.minus, "-", ⟨1, 7⟩⟩) .subtract (hnumber "2" ⟨1, 6⟩) rfl
      (hnumber "02" ⟨1, 8⟩) (by decide) (by decide)
    exact .binary .divide (hnumber "7" ⟨1, 1⟩) rfl (.group rfl hdivisor rfl) (by decide) (by decide)
  obtain ⟨-, -, hfits⟩ := arithmetic_exact_or_fails hsource
  obtain ⟨-, -, value, hrun, -, herror⟩ := (hfits (by decide)).2 _ _ hderives
  obtain rfl := herror _ rfl
  exact ⟨hsource, hrun⟩

end Session

end Monkey
