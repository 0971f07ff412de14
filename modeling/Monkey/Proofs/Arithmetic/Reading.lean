import Monkey.Proofs.Arithmetic
import Monkey.Proofs.Grammar.Acceptance
import Monkey.Proofs.Number
import Monkey.Proofs.Program.Recovery
import Monkey.Proofs.Token

/-! # Reading integer arithmetic

What counts as an expression over integer literals is said without precedence (`Written`); how it is
read, with precedence (`Derives`). Every such expression is read, as the tree that precedence gives
it, unless a literal is too large: then reading stops at the first one that is
(`Derives.parse_eq`).
-/

namespace Monkey

/-- The number that the digits of a literal denote. -/
def Token.number (t : Token) : Nat :=
  Decimal.digitsValue t.literal.toList

/-- The token is an integer literal that is no integer of the language. -/
def Token.oversized (t : Token) : Bool :=
  t.kind = .int ∧ 9223372036854775807 < t.number

namespace Arithmetic

def Op.kind : Op → Token.Kind
  | add => .plus
  | subtract => .minus
  | multiply => .asterisk
  | divide => .slash

def Op.precedence (op : Op) : Precedence :=
  op.toBinaryOp.precedence

/-- What the integer literals among the tokens denote. -/
def numbers (ts : List Token) : List Nat :=
  (ts.filter (·.kind = .int)).map Token.number

theorem exists_oversized_iff {ts : List Token} :
    (∃ t ∈ ts, t.oversized = true) ↔ ∃ n ∈ numbers ts, 9223372036854775807 < n := by
  simp [numbers, Token.oversized, and_assoc]

/-- The tokens are an expression over integer literals, in whatever way it is read. -/
inductive Written : List Token → Prop
  | literal {t : Token} (hkind : t.kind = .int) : Written [t]
  | negate {t : Token} {ts : List Token} (hkind : t.kind = .minus) (h : Written ts) :
    Written (t :: ts)
  | binary {t : Token} {ls rs : List Token} (op : Op) (hl : Written ls) (hkind : t.kind = op.kind)
    (hr : Written rs) : Written (ls ++ t :: rs)
  | group {opening closing : Token} {ts : List Token} (hopen : opening.kind = .lparen)
    (h : Written ts) (hclose : closing.kind = .rparen) : Written (opening :: (ts ++ [closing]))

/-- The tokens are read as an expression that binds as tightly as given. -/
inductive Derives : Precedence → List Token → Arithmetic → Prop
  | literal {t : Token} (hkind : t.kind = .int) : Derives .unary [t] (.literal t.number)
  | negate {t : Token} {ts : List Token} {a : Arithmetic} (hkind : t.kind = .minus)
    (h : Derives .unary ts a) : Derives .unary (t :: ts) a.negate
  | binary {p q : Precedence} {t : Token} {ls rs : List Token} {l r : Arithmetic} (op : Op)
    (hl : Derives p ls l) (hkind : t.kind = op.kind) (hr : Derives q rs r)
    (hp : op.precedence ≤ p) (hq : op.precedence < q) :
    Derives op.precedence (ls ++ t :: rs) (.binary op l r)
  | group {p : Precedence} {opening closing : Token} {ts : List Token} {a : Arithmetic}
    (hopen : opening.kind = .lparen) (h : Derives p ts a) (hclose : closing.kind = .rparen) :
    Derives .unary (opening :: (ts ++ [closing])) a

/-! ## Every expression has a reading -/

theorem Op.precedence_lt_unary (op : Op) : op.precedence < .unary := by
  cases op <;> decide

theorem Op.ofKind?_kind (op : Op) : Suffix.ofKind? op.kind = some (.binary op.toBinaryOp) := by
  cases op <;> rfl

/-- A further operand behind an expression belongs to what binds less tightly than its operator, or
to the last operand of that. -/
theorem Derives.snoc {p : Precedence} {ls us : List Token} {t : Token} {l u : Arithmetic} (op : Op)
    (hl : Derives p ls l) (hkind : t.kind = op.kind) (hu : Derives .unary us u) :
    ∃ q a, Derives q (ls ++ t :: us) a ∧ ∀ m, m < p → m < op.precedence → m < q := by
  have hloose {p : Precedence} {ls : List Token} {l : Arithmetic} (hl : Derives p ls l)
      (hp : op.precedence ≤ p) :
      ∃ q a, Derives q (ls ++ t :: us) a ∧ ∀ m, m < p → m < op.precedence → m < q :=
    ⟨_, _, .binary op hl hkind hu hp op.precedence_lt_unary, fun _ _ hm => hm⟩
  have hunary : op.precedence ≤ .unary := Nat.le_of_lt op.precedence_lt_unary
  induction hl with
  | literal hkind => exact hloose (.literal hkind) hunary
  | negate hkind h => exact hloose (.negate hkind h) hunary
  | group hopen h hclose => exact hloose (.group hopen h hclose) hunary
  | @binary p' q' t' ls' rs l' r op' hl' hkind' hr hp' hq _ ihr =>
      by_cases hp : op.precedence ≤ op'.precedence
      · exact hloose (.binary op' hl' hkind' hr hp' hq) hp
      · obtain ⟨q, a, ha, hless⟩ := ihr
        have hbinary := Derives.binary op' hl' hkind' ha hp' (hless _ hq (Nat.lt_of_not_le hp))
        rw [← List.cons_append, ← List.append_assoc] at hbinary
        exact ⟨_, _, hbinary, fun _ hm _ => hm⟩

/-- Operands between operators. -/
inductive Flat : List Token → Prop
  | one {ts : List Token} {a : Arithmetic} (h : Derives .unary ts a) : Flat ts
  | more {ts us : List Token} {t : Token} {a : Arithmetic} (op : Op) (hts : Flat ts)
    (hkind : t.kind = op.kind) (hus : Derives .unary us a) : Flat (ts ++ t :: us)

theorem Flat.derives {ts : List Token} (h : Flat ts) : ∃ p a, Derives p ts a := by
  induction h with
  | one h => exact ⟨_, _, h⟩
  | more op _ hkind hus ih =>
      obtain ⟨p, l, hl⟩ := ih
      obtain ⟨q, a, ha, -⟩ := hl.snoc op hkind hus
      exact ⟨q, a, ha⟩

theorem Flat.negate {ts : List Token} {t : Token} (h : Flat ts) (hkind : t.kind = .minus) :
    Flat (t :: ts) := by
  induction h with
  | one h => exact .one (.negate hkind h)
  | more op _ hkind' hus ih => exact .more op ih hkind' hus

theorem Flat.append {ls rs : List Token} {t : Token} (op : Op) (hl : Flat ls)
    (hkind : t.kind = op.kind) (hr : Flat rs) : Flat (ls ++ t :: rs) := by
  induction hr with
  | one h => exact .more op hl hkind h
  | @more ts us t' a op' _ hkind' hus ih =>
      have hmore := Flat.more op' ih hkind' hus
      rwa [List.append_assoc, List.cons_append] at hmore

theorem Written.flat {ts : List Token} (h : Written ts) : Flat ts := by
  induction h with
  | literal hkind => exact .one (.literal hkind)
  | negate hkind _ ih => exact ih.negate hkind
  | binary op _ hkind _ ihl ihr => exact ihl.append op hkind ihr
  | group hopen _ hclose ih =>
      obtain ⟨p, a, ha⟩ := ih.derives
      exact .one (.group hopen ha hclose)

/-! ## Reading goes on behind an expression -/

open Rule Grammar

variable {p : Precedence} {ts : List Token} {a : Arithmetic} {tokens rest middle : Tokens}
  {depth : Nat} {min : Precedence} {left e : Expr} {outcome : Except Diagnostic Expr × Tokens}

/-- The loop that extends an operand has the given outcome, however many more steps it may take. -/
def Resumes (depth : Nat) (min : Precedence) (left : Expr) (tokens : Tokens)
    (outcome : Except Diagnostic Expr × Tokens) : Prop :=
  ∀ count, tokens.front.length ≤ count →
    (suffixes (Rule.expression depth) min count left).outcome tokens = outcome

/-- Behind the last suffix the loop ends. -/
theorem Resumes.stop (hstops : Stops min rest) : Resumes depth min e rest (.ok e, rest) :=
  Extends.stop hstops

/-- At an operator the loop takes the right operand. -/
theorem outcome_suffixes_operator {t : Token} {op : Op} {count : Nat} (hkind : t.kind = op.kind)
    (hmin : min < op.precedence) :
    (suffixes (Rule.expression depth) min (count + 1) left).outcome (rest.prepend (t :: ts)) =
      (extend (Rule.expression depth) left (.binary op.toBinaryOp) >>=
        suffixes (Rule.expression depth) min count).outcome (rest.prepend ts) := by
  have hsuffix : Suffix.ofKind? (rest.prepend (t :: ts)).kind = some (.binary op.toBinaryOp) := by
    rw [Tokens.kind_prepend_cons, hkind, op.ofKind?_kind]
  exact outcome_suffixes_of_lt hsuffix hmin

theorem Resumes.step {t : Token} {op : Op} {r : Expr} (hkind : t.kind = op.kind)
    (hmin : min < op.precedence)
    (hright : (Rule.expression depth op.precedence).Reads (rest.prepend ts) r rest)
    (h : Resumes depth min (.binary op.toBinaryOp left r) rest outcome) :
    Resumes depth min left (rest.prepend (t :: ts)) outcome := by
  intro count hcount
  cases count with
  | zero => simp at hcount
  | succ count =>
      have hextend : (extend (Rule.expression depth) left (.binary op.toBinaryOp)).Reads
          (rest.prepend ts) (.binary op.toBinaryOp left r) rest :=
        reads_bind.mpr ⟨r, rest, hright, reads_pure.mpr ⟨rfl, rfl⟩⟩
      rw [outcome_suffixes_operator hkind hmin, outcome_bind_of_reads hextend]
      exact h count (by simp at hcount; omega)

theorem Resumes.step_error {t : Token} {op : Op} {d : Diagnostic} (hkind : t.kind = op.kind)
    (hmin : min < op.precedence)
    (hright : (Rule.expression depth op.precedence).outcome (rest.prepend ts) =
      (.error d, middle)) :
    Resumes depth min left (rest.prepend (t :: ts)) (.error d, middle) := by
  intro count hcount
  cases count with
  | zero => simp at hcount
  | succ count =>
      have hextend : (extend (Rule.expression depth) left (.binary op.toBinaryOp)).outcome
          (rest.prepend ts) = (.error d, middle) := outcome_bind_of_error hright
      rw [outcome_suffixes_operator hkind hmin, outcome_bind_of_error hextend]

theorem outcome_expression_succ
    (hleft : (operand (Rule.expression depth) (Rule.block depth)).Reads tokens left middle)
    (h : Resumes depth min left middle outcome) :
    (Rule.expression (depth + 1) min).outcome tokens = outcome := by
  have hget : (get : Rule Tokens).Reads middle middle middle := reads_get.mpr ⟨rfl, rfl⟩
  rw [Rule.expression, outcome_bind_of_reads hleft, outcome_bind_of_reads hget]
  exact h _ (Nat.le_refl _)

/-- An expression in parentheses is read as that expression. -/
theorem reads_operand_group {opening closing : Token} (hopen : opening.kind = .lparen)
    (hinner : (Rule.expression depth .lowest).Reads ((rest.prepend [closing]).prepend ts) e
      (rest.prepend [closing]))
    (hclose : closing.kind = .rparen) :
    (operand (Rule.expression depth) (Rule.block depth)).Reads
      (rest.prepend (opening :: (ts ++ [closing]))) e rest := by
  rw [operand, reads_peek_bind, Tokens.current_prepend_cons]
  simp only [hopen]
  rw [reads_skip_bind, Tokens.advance_prepend_cons, Tokens.prepend_append]
  refine reads_bind.mpr ⟨e, _, hinner, ?_⟩
  rw [reads_expect_bind, reads_pure]
  exact ⟨hclose, rfl, rfl⟩

theorem Derives.length_pos (h : Derives p ts a) : 0 < ts.length := by
  cases h with
  | binary => simp
  | _ => simp

/-- Reading an expression takes at least one level. -/
theorem Derives.exists_succ (h : Derives p ts a) (hlength : ts.length ≤ depth) :
    ∃ d, depth = d + 1 :=
  Nat.exists_eq_add_one.mpr (Nat.lt_of_lt_of_le h.length_pos hlength)

theorem Derives.precedence_mem (h : Derives p ts a) : .sum ≤ p ∧ p ≤ .unary := by
  cases h with
  | binary op => cases op <;> decide
  | _ => decide

theorem Derives.lowest_lt (h : Derives p ts a) : Precedence.lowest < p :=
  Nat.lt_of_lt_of_le (by decide) h.precedence_mem.1

/-- An operation that may stand here is not kept out by the precedence. -/
theorem Op.lt_precedence {op : Op} (hp : min < op.precedence ∨ op.precedence = .unary) :
    min < op.precedence :=
  hp.resolve_right fun heq => absurd op.precedence_lt_unary (heq ▸ Nat.lt_irrefl _)

theorem Op.follows {t : Token} {op : Op} (hkind : t.kind = op.kind) (hp : op.precedence ≤ p) :
    Grammar.Follows p (rest.prepend (t :: ts)) := by
  constructor
  · intro suffix hsuffix
    rw [Tokens.kind_prepend_cons, hkind, op.ofKind?_kind, Option.some.injEq] at hsuffix
    subst hsuffix
    exact hp
  · rw [Tokens.kind_prepend_cons, hkind]
    cases op <;> decide

/-- An expression all of whose literals fit is read as its tree, and then reading goes on. -/
theorem Derives.outcome_eq (h : Derives p ts a)
    (hfits : ∀ t ∈ ts, t.kind = .int →
      Number.readInteger? t.literal = some (Int64.ofInt t.number))
    (hmin : min ≤ .unary) (hp : min < p ∨ p = .unary) (hlength : ts.length ≤ depth + 1)
    (hfollows : Grammar.Follows p rest) (hresumes : Resumes depth min a.toExpr rest outcome) :
    (Rule.expression (depth + 1) min).outcome (rest.prepend ts) = outcome := by
  induction h generalizing depth min rest outcome with
  | @literal t hkind =>
      have hleaf : Leaf t (.int (Int64.ofInt t.number)) :=
        .int hkind (hfits t List.mem_cons_self hkind)
      have hoperand := ReadsOperand.leaf hleaf depth rest hlength hfollows.kind_ne
      exact outcome_expression_succ hoperand hresumes
  | @negate t ts a hkind h ih =>
      have hlength' : ts.length ≤ depth := Nat.le_of_succ_le_succ hlength
      obtain ⟨d, rfl⟩ := h.exists_succ hlength'
      have hinner : (Rule.expression (d + 1) .unary).Reads (rest.prepend ts) a.toExpr rest :=
        ih (fun t ht => hfits t (List.mem_cons_of_mem _ ht)) (Nat.le_refl _) (.inr rfl) hlength'
          hfollows (.stop hfollows.stops)
      have hsign : (t.kind, UnaryOp.negate) ∈ signs := by simp [hkind, signs]
      exact outcome_expression_succ (reads_operand_unary hsign hinner) hresumes
  | @group p opening closing ts a hopen h hclose ih =>
      simp only [List.length_cons, List.length_append, List.length_nil] at hlength
      have hlength' : ts.length ≤ depth := by omega
      obtain ⟨d, rfl⟩ := h.exists_succ hlength'
      have hbehind (p : Precedence) : Grammar.Follows p (rest.prepend [closing]) :=
        .of_kind hclose rfl (by decide)
      have hinner : (Rule.expression (d + 1) .lowest).Reads ((rest.prepend [closing]).prepend ts)
          a.toExpr (rest.prepend [closing]) :=
        ih (fun t ht => hfits t (by simp [ht])) (by decide) (.inl h.lowest_lt) hlength' (hbehind p)
          (.stop (hbehind _).stops)
      exact outcome_expression_succ (reads_operand_group hopen hinner hclose) hresumes
  | @binary p q t ls rs l r op hl hkind hr hle hlt ihl ihr =>
      have hmin' : min < op.precedence := Op.lt_precedence hp
      simp only [List.length_cons, List.length_append] at hlength
      have hlpos := hl.length_pos
      have hlength' : rs.length ≤ depth := by omega
      obtain ⟨d, rfl⟩ := hr.exists_succ hlength'
      have hright : (Rule.expression (d + 1) op.precedence).Reads (rest.prepend rs) r.toExpr rest :=
        ihr (fun t ht => hfits t (by simp [ht])) (Nat.le_of_lt op.precedence_lt_unary) (.inl hlt)
          hlength' (hfollows.mono (Nat.le_of_lt hlt)) (.stop hfollows.stops)
      rw [Tokens.prepend_append]
      exact ihl (fun t ht => hfits t (by simp [ht])) hmin (.inl (Nat.lt_of_lt_of_le hmin' hle))
        (by omega) (Op.follows hkind hle) (.step hkind hmin' hright hresumes)

/-! ## Reading stops at a literal that is too large -/

theorem readInteger?_number {t : Token} (hlexical : t.Lexical) (hkind : t.kind = .int) :
    Number.readInteger? t.literal =
      if t.oversized then none else some (Int64.ofInt t.number) := by
  obtain ⟨hne, hdigits⟩ := hlexical.isNumeral hkind
  rw [Number.readInteger?, Number.readSigned?_digits hne hdigits, Option.bind_eq_bind,
    Option.bind_some, integer?_eq]
  by_cases hlarge : 9223372036854775807 < t.number
  · have hrange : ¬ (-9223372036854775808 ≤ (t.number : Int) ∧
        (t.number : Int) ≤ 9223372036854775807) := by omega
    simp only [Token.oversized, hkind, hlarge]
    exact if_neg hrange
  · have hrange : -9223372036854775808 ≤ (t.number : Int) ∧
        (t.number : Int) ≤ 9223372036854775807 := by omega
    simp only [Token.oversized, hkind, hlarge]
    exact if_pos hrange

/-- Where no literal is too large, all of them are read. -/
theorem readInteger?_of_find?_eq_none (hlexical : ∀ t ∈ ts, t.Lexical)
    (hnone : ts.find? Token.oversized = none) :
    ∀ t ∈ ts, t.kind = .int → Number.readInteger? t.literal = some (Int64.ofInt t.number) := by
  intro t ht hkind
  have hsmall : t.oversized = false := by simpa using List.find?_eq_none.mp hnone t ht
  rw [readInteger?_number (hlexical t ht) hkind, hsmall]
  rfl

/-- The diagnostic of a literal that is too large. -/
def invalid (t : Token) : Diagnostic :=
  ⟨.invalidInteger t.literal, t.position⟩

/-- A failure of the first operand is one of the expression. -/
theorem outcome_expression_of_error {d : Diagnostic}
    (hleft : (operand (Rule.expression depth) (Rule.block depth)).outcome tokens =
      (.error d, middle)) :
    (Rule.expression (depth + 1) min).outcome tokens = (.error d, middle) := by
  rw [Rule.expression, outcome_bind_of_error hleft]

/-- The first token of an operand is looked at and read. -/
theorem outcome_peek_skip {α : Type} {t : Token} {next : Token → Rule α} {more : Rule α}
    (hnext : next t = do skip; more) :
    (peek >>= next).outcome (rest.prepend (t :: ts)) = more.outcome (rest.prepend ts) := by
  have hpeek : peek.Reads (rest.prepend (t :: ts)) t (rest.prepend (t :: ts)) :=
    reads_peek.mpr ⟨rfl, rfl⟩
  have hskip : skip.Reads (rest.prepend (t :: ts)) () (rest.prepend ts) := reads_skip.mpr rfl
  rw [outcome_bind_of_reads hpeek, hnext, outcome_bind_of_reads hskip]

/-- The first literal that is too large is reported, however much has been read before it. -/
theorem Derives.outcome_error (h : Derives p ts a) (hlexical : ∀ t ∈ ts, t.Lexical)
    {large : Token} (hfirst : ts.find? Token.oversized = some large) (hmin : min ≤ .unary)
    (hp : min < p ∨ p = .unary) (hlength : ts.length ≤ depth + 1) (rest : Tokens) :
    ∃ middle, (Rule.expression (depth + 1) min).outcome (rest.prepend ts) =
      (.error (invalid large), middle) := by
  induction h generalizing depth min rest with
  | @literal t hkind =>
      obtain rfl := List.mem_singleton.mp (List.mem_of_find?_eq_some hfirst)
      have hread := readInteger?_number (hlexical large List.mem_cons_self) hkind
      rw [List.find?_some hfirst, if_pos rfl] at hread
      refine ⟨rest, outcome_expression_of_error ?_⟩
      rw [operand, outcome_peek_skip (by simp only [hkind]; rfl), hread]
      rfl
  | @negate t ts a hkind h ih =>
      have hsmall : t.oversized = false := by simp [Token.oversized, hkind]
      rw [List.find?_cons_of_neg (by simp [hsmall])] at hfirst
      have hlength' : ts.length ≤ depth := Nat.le_of_succ_le_succ hlength
      obtain ⟨d, rfl⟩ := h.exists_succ hlength'
      obtain ⟨middle, hinner⟩ : ∃ middle, (Rule.expression (d + 1) .unary).outcome
          (rest.prepend ts) = (.error (invalid large), middle) :=
        ih (fun t ht => hlexical t (List.mem_cons_of_mem _ ht)) hfirst (Nat.le_refl _) (.inr rfl)
          hlength' rest
      refine ⟨middle, outcome_expression_of_error ?_⟩
      rw [operand, outcome_peek_skip (by simp only [hkind]; rfl)]
      exact outcome_bind_of_error hinner
  | @group p opening closing ts a hopen h hclose ih =>
      have hopening : opening.oversized = false := by simp [Token.oversized, hopen]
      have hclosing : closing.oversized = false := by simp [Token.oversized, hclose]
      have hfirst : ts.find? Token.oversized = some large := by
        simpa [List.find?_append, hopening, hclosing] using hfirst
      simp only [List.length_cons, List.length_append, List.length_nil] at hlength
      have hlength' : ts.length ≤ depth := by omega
      obtain ⟨d, rfl⟩ := h.exists_succ hlength'
      obtain ⟨middle, hinner⟩ : ∃ middle, (Rule.expression (d + 1) .lowest).outcome
          ((rest.prepend [closing]).prepend ts) = (.error (invalid large), middle) :=
        ih (fun t ht => hlexical t (by simp [ht])) hfirst (by decide) (.inl h.lowest_lt) hlength' _
      rw [← Tokens.prepend_append] at hinner
      refine ⟨middle, outcome_expression_of_error ?_⟩
      rw [operand, outcome_peek_skip (by simp only [hopen]; rfl)]
      exact outcome_bind_of_error hinner
  | @binary p q t ls rs l r op hl hkind hr hle hlt ihl ihr =>
      have hmin' : min < op.precedence := Op.lt_precedence hp
      have hleft : min < p ∨ p = .unary := .inl (Nat.lt_of_lt_of_le hmin' hle)
      simp only [List.length_cons, List.length_append] at hlength
      rw [Tokens.prepend_append]
      -- If the literal is not on the left, the loop behind the left operand comes to it.
      cases hfirstLeft : ls.find? Token.oversized with
      | some t' =>
          have hsame : t' = large := by simpa [List.find?_append, hfirstLeft] using hfirst
          subst hsame
          exact ihl (fun t ht => hlexical t (by simp [ht])) hfirstLeft hmin hleft (by omega) _
      | none =>
          have hop : t.oversized = false := by
            rw [Token.oversized, hkind]
            cases op <;> rfl
          have hfirstRight : rs.find? Token.oversized = some large := by
            simpa [List.find?_append, hfirstLeft, hop] using hfirst
          have hlpos := hl.length_pos
          have hlength' : rs.length ≤ depth := by omega
          obtain ⟨d, rfl⟩ := hr.exists_succ hlength'
          obtain ⟨middle, hright⟩ : ∃ middle, (Rule.expression (d + 1) op.precedence).outcome
              (rest.prepend rs) = (.error (invalid large), middle) :=
            ihr (fun t ht => hlexical t (by simp [ht])) hfirstRight
              (Nat.le_of_lt op.precedence_lt_unary) (.inl hlt) hlength' rest
          have hread := readInteger?_of_find?_eq_none (fun t ht => hlexical t (by simp [ht]))
            hfirstLeft
          exact ⟨middle, hl.outcome_eq hread hmin hleft (by omega) (Op.follows hkind hle)
            (.step_error hkind hmin' hright)⟩

/-! ## Whole sources -/

/-- Only a few kinds of tokens occur in expressions over integer literals. -/
theorem Derives.kind_mem (h : Derives p ts a) :
    ∀ t ∈ ts, t.kind ∈ [.int, .plus, .minus, .asterisk, .slash, .lparen, .rparen] := by
  induction h with
  | literal hkind => simp [hkind]
  | negate hkind _ ih => exact List.forall_mem_cons.mpr ⟨by simp [hkind], ih⟩
  | binary op _ hkind _ _ _ ihl ihr =>
      refine List.forall_mem_append.mpr ⟨ihl, List.forall_mem_cons.mpr ⟨?_, ihr⟩⟩
      rw [hkind]
      cases op <;> decide
  | group hopen _ hclose ih =>
      refine List.forall_mem_cons.mpr ⟨by simp [hopen], List.forall_mem_append.mpr ⟨ih, ?_⟩⟩
      simp [hclose]

theorem Derives.exists_cons (h : Derives p ts a) :
    ∃ t us, ts = t :: us ∧ t.kind ∈ [.int, .minus, .lparen] := by
  induction h with
  | literal hkind | negate hkind | group hkind => exact ⟨_, _, rfl, by simp [hkind]⟩
  | binary _ _ _ _ _ _ ihl =>
      obtain ⟨t, us, rfl, hkind⟩ := ihl
      exact ⟨t, _, rfl, hkind⟩

/-- The literals of the tree are those of the source. -/
theorem Derives.literals_eq (h : Derives p ts a) : a.literals = numbers ts := by
  induction h with
  | literal hkind => simp [literals, numbers, hkind]
  | negate hkind _ ih => simpa [literals, numbers, hkind] using ih
  | group hopen _ hclose ih => simpa [numbers, hopen, hclose] using ih
  | binary op _ hkind _ _ _ ihl ihr =>
      have hop : op.kind ≠ .int := by cases op <;> decide
      simp [literals, numbers, hkind, hop, ihl, ihr]

/-- A statement that starts like an expression over integer literals is an expression. -/
theorem outcome_topStatement_of_error {d : Diagnostic}
    (hkind : tokens.kind ∈ [Token.Kind.int, .minus, .lparen])
    (herror : (Rule.expression tokens.front.length .lowest).outcome tokens = (.error d, middle)) :
    tokens.topStatement.outcome tokens = (.error d, middle) := by
  have hpeek : peek.Reads tokens tokens.current tokens := reads_peek.mpr ⟨rfl, rfl⟩
  rw [Tokens.topStatement, Rule.statement, outcome_bind_of_reads hpeek]
  simp only [List.mem_cons, List.not_mem_nil, or_false] at hkind
  rcases hkind with hkind | hkind | hkind
  all_goals
    rw [Tokens.kind] at hkind
    simp only [hkind]
    exact outcome_bind_of_error herror

/-- Without literals that are too large the source is one statement, the expression. -/
theorem Derives.parseProgram_eq (h : Derives p tokens.front a)
    (hlexical : ∀ t ∈ tokens.front, t.Lexical)
    (hfits : tokens.front.find? Token.oversized = none) :
    tokens.parseProgram.1 = ⟨[.expr a.toExpr], []⟩ := by
  obtain ⟨front, last, hlast⟩ := tokens
  obtain ⟨depth, hdepth⟩ := h.exists_succ (Nat.le_refl _)
  have hread := readInteger?_of_find?_eq_none hlexical hfits
  have hend (q : Precedence) : Grammar.Follows q ⟨[], last, hlast⟩ :=
    .of_kind hlast rfl (by decide)
  have hreads : (Rule.expression (depth + 1) .lowest).Reads
      (Tokens.prepend front ⟨[], last, hlast⟩) a.toExpr ⟨[], last, hlast⟩ :=
    h.outcome_eq hread (by decide) (.inl h.lowest_lt) (Nat.le_of_eq hdepth) (hend p)
      (.stop (hend _).stops)
  -- What has been read is derived by the grammar, and so is the program that consists of it.
  obtain ⟨ts, hts, hchain, -⟩ := (expression_block_sound _).1 _ _ _ _ (by decide) hreads
  have hfront : front = ts := by simpa [Tokens.prepend] using hts
  subst hfront
  have hstatements : Statements (front ++ []) [.expr a.toExpr] :=
    .bare (.expr hchain) (by simp [Delimited]) .nil
  rw [List.append_nil] at hstatements
  exact Statements.parseProgram_eq hstatements

/-- The first literal that is too large is the one diagnostic. -/
theorem Derives.parseProgram_of_oversized (h : Derives p tokens.front a)
    (hlexical : ∀ t ∈ tokens.front, t.Lexical) {large : Token}
    (hfirst : tokens.front.find? Token.oversized = some large) :
    tokens.parseProgram.1 = ⟨[], [invalid large]⟩ := by
  obtain ⟨depth, hdepth⟩ := h.exists_succ (Nat.le_refl _)
  obtain ⟨t, us, hfront, hstart⟩ := h.exists_cons
  have hkind : tokens.kind ∈ [Token.Kind.int, .minus, .lparen] := by
    simpa [Tokens.kind, Tokens.current, hfront] using hstart
  obtain ⟨middle, herror⟩ := h.outcome_error hlexical hfirst (by decide) (.inl h.lowest_lt)
    (Nat.le_of_eq hdepth) ⟨[], tokens.last, tokens.last_eof⟩
  have htokens : Tokens.prepend tokens.front ⟨[], tokens.last, tokens.last_eof⟩ = tokens := by
    simp [Tokens.prepend]
  rw [htokens, ← hdepth] at herror
  have houtcome := outcome_topStatement_of_error hkind herror
  have heof : tokens.kind ≠ .eof := by
    intro heof
    simp [heof] at hkind
  have hsemicolon : tokens.kind ≠ .semicolon := by
    intro hsemicolon
    simp [hsemicolon] at hkind
  -- There is no semicolon, so the rest of the source is skipped.
  have hend : middle.synchronize.kind = .eof := by
    obtain ⟨skipped, hskipped, -, ⟨vs, t, rfl, ht⟩ | hend⟩ := middle.exists_prepend_synchronize
    · have hmem : t ∈ middle.front := by
        rw [hskipped]
        simp
      have hkind := h.kind_mem t ((Tokens.isSuffix_of_topStatement houtcome).mem hmem)
      simp [ht] at hkind
    · exact hend
  rw [(Tokens.Segmented.abandoned heof hsemicolon houtcome (.done hend)).parseProgram_eq]
  rfl

/-- How a source that is an expression over integer literals is read. -/
theorem Derives.parse_eq {source : String} (h : Derives p (Token.tokenize source).front a) :
    parse source =
      match (Token.tokenize source).front.find? Token.oversized with
      | none => ⟨[.expr a.toExpr], []⟩
      | some large => ⟨[], [invalid large]⟩ := by
  have hlexical := Token.lexical_of_mem_tokenize source
  cases hfirst : (Token.tokenize source).front.find? Token.oversized with
  | none => exact h.parseProgram_eq hlexical hfirst
  | some large => exact h.parseProgram_of_oversized hlexical hfirst

end Arithmetic

end Monkey
