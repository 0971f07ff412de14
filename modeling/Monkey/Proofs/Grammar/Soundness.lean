import Monkey.Proofs.Grammar
import Monkey.Proofs.Program.Rules

/-! # Rules read what the grammar derives

Every successful rule has taken tokens off the front that derive its tree. An expression read at a
given strength lies in the strata above it, and is followed by nothing that binds more tightly: this
is the invariant of the loop that extends an operand.
-/

namespace Monkey.Grammar

open Rule

/-! ## Strata and strengths -/

/-- The first token of the sequence does not extend an operand at the given strength. -/
def Stops (min : Precedence) (tokens : Tokens) : Prop :=
  ∀ suffix, Suffix.ofKind? tokens.kind = some suffix → suffix.precedence ≤ min

theorem mem_extending_iff (kind : Token.Kind) :
    kind ∈ extending ↔ (Suffix.ofKind? kind).isSome = true := by
  cases kind <;> decide

/-- The stratum of an operator is the one at its strength. -/
theorem exists_stratum {kind : Token.Kind} {op : BinaryOp}
    (h : Suffix.ofKind? kind = some (.binary op)) :
    ∃ ops, strata.drop (op.precedence.level - 1) = ops :: strata.drop op.precedence.level ∧
      (kind, op) ∈ ops := by
  cases kind <;>
    simp only [Suffix.ofKind?, Option.some.injEq, Suffix.binary.injEq, reduceCtorEq] at h
  all_goals
    subst h
    exact ⟨_, rfl, by decide⟩

theorem Chain.weaken {loose tight : List Stratum} {ts : List Token} {e : Expr}
    (h : Chain tight ts e) : Chain (loose ++ tight) ts e := by
  induction loose with
  | nil => exact h
  | cons ops rest ih => exact .tighter ih

theorem Chain.loosen {m n : Nat} {ts : List Token} {e : Expr} (hle : m ≤ n)
    (h : Chain (strata.drop n) ts e) : Chain (strata.drop m) ts e := by
  have hsplit : strata.drop m = (strata.drop m).take (n - m) ++ strata.drop n := by
    conv_lhs => rw [← List.take_append_drop (n - m) (strata.drop m)]
    rw [List.drop_drop, Nat.add_sub_cancel' hle]
  rw [hsplit]
  exact h.weaken

theorem Unary.chain {m : Nat} {ts : List Token} {e : Expr} (h : Unary ts e) :
    Chain (strata.drop m) ts e := by
  have hchain : Chain (strata.drop m ++ []) ts e := (Chain.operand h).weaken
  rwa [List.append_nil] at hchain

/-! ## Soundness of the rules -/

/-- Every expression that the rule reads is derived by the tokens it takes. -/
def ExpressionSound (expression : Precedence → Rule Expr) : Prop :=
  ∀ min tokens e rest, min ≤ .unary → (expression min).Reads tokens e rest →
    ∃ ts, tokens = rest.prepend ts ∧ Chain (strata.drop min.level) ts e ∧ Stops min rest

/-- Every block that the rule reads is derived by the tokens it takes. -/
def BlockSound (block : Rule Monkey.Block) : Prop :=
  ∀ tokens body rest, block.Reads tokens body rest →
    ∃ ts, tokens = rest.prepend ts ∧ Grammar.Block ts body

section Rules

variable {expression : Precedence → Rule Expr} {block : Rule Monkey.Block}
variable {tokens rest : Tokens} {e : Expr}

/-- A token of a known kind, which is no end marker, is the first of the tokens read. -/
theorem prepend_current {kind : Token.Kind} (hkind : tokens.kind = kind) (hne : kind ≠ .eof) :
    tokens = tokens.advance.prepend [tokens.current] :=
  Tokens.eq_prepend_advance (hkind ▸ hne)

theorem condition_sound (hexpression : ExpressionSound expression)
    (h : (condition (expression .lowest)).Reads tokens e rest) :
    ∃ ts, tokens = rest.prepend ts ∧ Condition ts e := by
  rw [condition, reads_expect_bind] at h
  obtain ⟨hopen, h⟩ := h
  obtain ⟨_, middle, hinner, h⟩ := reads_bind.mp h
  rw [reads_expect_bind, reads_pure] at h
  obtain ⟨hclose, rfl, rfl⟩ := h
  obtain ⟨ts, hts, hchain, -⟩ := hexpression _ _ _ _ (by decide) hinner
  have htokens := prepend_current hopen (by decide)
  rw [hts, prepend_current hclose (by decide)] at htokens
  exact ⟨tokens.current :: (ts ++ [middle.current]), by simpa using htokens,
    .mk hopen hchain hclose⟩

/-- Items between commas derive a list, by what one item and one more item derive. -/
theorem commaList_sound {α : Type} {item : Rule α} {closing : Token.Kind} {items : List α}
    {Item : List Token → α → Prop} {List' : List Token → List α → Prop}
    (hlast : ∀ ts a, Item ts a → List' ts [a])
    (hcons : ∀ ts comma us a as, Item ts a → comma.kind = .comma → List' us as →
      List' (ts ++ comma :: us) (a :: as))
    (hitem : ∀ tokens a rest, item.Reads tokens a rest → ∃ ts, tokens = rest.prepend ts ∧ Item ts a)
    (hclosing : closing ≠ .eof) (h : (commaList item closing).Reads tokens items rest) :
    ∃ ts close, tokens = rest.prepend (ts ++ [close]) ∧ close.kind = closing ∧
      (ts = [] ∧ items = [] ∨ List' ts items) := by
  rw [commaList, reads_accept_bind] at h
  split at h
  next hclose =>
    obtain ⟨rfl, rfl⟩ := reads_pure.mp h
    exact ⟨[], tokens.current, prepend_current hclose hclosing, hclose, .inl ⟨rfl, rfl⟩⟩
  next =>
    simp only [Bool.false_eq_true, ↓reduceIte] at h
    obtain ⟨a, middle, ha, h⟩ := reads_bind.mp h
    obtain ⟨as, middle', has, h⟩ := reads_bind.mp h
    rw [reads_expect_bind, reads_pure] at h
    obtain ⟨hclose, rfl, rfl⟩ := h
    obtain ⟨ts, hts, ha⟩ := hitem _ _ _ ha
    have hmore : ∃ us, middle = middle'.prepend us ∧
        ∀ ts a, Item ts a → List' (ts ++ us) (a :: as) := by
      refine manyToEnd_induct (motive := fun tokens as rest => ∃ us, tokens = rest.prepend us ∧
        ∀ ts a, Item ts a → List' (ts ++ us) (a :: as)) ?_ ?_ ?_ ?_ has
      · intro tokens rest hstop
        rw [reads_furtherItem] at hstop
        split at hstop
        · simp at hstop
        · exact ⟨[], hstop.2, fun ts a ha => by simpa using hlast ts a ha⟩
      · intro tokens _
        exact ⟨[], rfl, fun ts a ha => by simpa using hlast ts a ha⟩
      · rintro tokens a middle as rest hstep ⟨us, rfl, hlist⟩
        rw [reads_furtherItem] at hstep
        split at hstep
        next hcomma =>
          obtain ⟨_, ha, heq⟩ := hstep
          cases heq
          obtain ⟨ts, hts, ha⟩ := hitem _ _ _ ha
          have htokens := prepend_current hcomma (by decide)
          rw [hts] at htokens
          refine ⟨tokens.current :: (ts ++ us), by simpa using htokens, ?_⟩
          intro ts' a' ha'
          exact hcons _ _ _ _ _ ha' hcomma (hlist _ _ ha)
        next => simp at hstep
      · intro tokens a middle hstep
        rw [reads_furtherItem] at hstep
        split at hstep
        next hcomma =>
          obtain ⟨_, ha, -⟩ := hstep
          obtain ⟨ts, hts, -⟩ := hitem _ _ _ ha
          rw [prepend_current hcomma (by decide), hts]
          simp only [Tokens.front_prepend, List.length_append, List.length_cons, List.length_nil]
          omega
        next => simp at hstep
    obtain ⟨us, hus, hlist⟩ := hmore
    rw [hus, prepend_current hclose hclosing] at hts
    exact ⟨ts ++ us, middle'.current, by simpa using hts, hclose, .inr (hlist ts a ha)⟩

theorem args_sound (hexpression : ExpressionSound expression) {closing : Token.Kind}
    {es : List Expr} (hclosing : closing ≠ .eof)
    (h : (commaList (expression .lowest) closing).Reads tokens es rest) :
    ∃ ts close, tokens = rest.prepend (ts ++ [close]) ∧ close.kind = closing ∧ Args ts es := by
  have hitem : ∀ tokens a rest, (expression .lowest).Reads tokens a rest →
      ∃ ts, tokens = rest.prepend ts ∧ Chain strata ts a := by
    intro tokens a rest ha
    obtain ⟨ts, hts, hchain, -⟩ := hexpression _ _ _ _ (by decide) ha
    exact ⟨ts, hts, hchain⟩
  have hlast : ∀ ts e, Chain strata ts e → Items ts [e] := fun _ _ he => .last he
  have hcons : ∀ ts comma us e es, Chain strata ts e → comma.kind = .comma → Items us es →
      Items (ts ++ comma :: us) (e :: es) := fun _ _ _ _ _ he hcomma hes => .cons he hcomma hes
  obtain ⟨ts, close, htokens, hclose, hlist⟩ := commaList_sound hlast hcons hitem hclosing h
  refine ⟨ts, close, htokens, hclose, ?_⟩
  rcases hlist with ⟨rfl, rfl⟩ | hitems
  · exact .nil
  · exact .items hitems

theorem params_sound {params : List String}
    (h : (commaList Rule.name .rparen).Reads tokens params rest) :
    ∃ ts close, tokens = rest.prepend (ts ++ [close]) ∧ close.kind = .rparen ∧
      Params ts params := by
  have hitem : ∀ tokens name rest, Rule.name.Reads tokens name rest →
      ∃ ts, tokens = rest.prepend ts ∧ ∃ t, ts = [t] ∧ t.kind = .ident ∧ t.literal = name := by
    intro tokens name rest hname
    obtain ⟨hkind, hliteral, rfl⟩ := reads_name.mp hname
    exact ⟨_, prepend_current hkind (by decide), _, rfl, hkind, hliteral⟩
  have hlast : ∀ ts name, (∃ t, ts = [t] ∧ t.kind = .ident ∧ t.literal = name) →
      Names ts [name] := by
    rintro _ _ ⟨t, rfl, hkind, rfl⟩
    exact .last hkind
  have hcons : ∀ ts comma us name names, (∃ t, ts = [t] ∧ t.kind = .ident ∧ t.literal = name) →
      comma.kind = .comma → Names us names → Names (ts ++ comma :: us) (name :: names) := by
    rintro _ _ _ _ _ ⟨t, rfl, hkind, rfl⟩ hcomma hnames
    exact .cons hkind hcomma hnames
  obtain ⟨ts, close, htokens, hclose, hlist⟩ := commaList_sound hlast hcons hitem (by decide) h
  refine ⟨ts, close, htokens, hclose, ?_⟩
  rcases hlist with ⟨rfl, rfl⟩ | hnames
  · exact .nil
  · exact .names hnames

theorem leaf_sound {kind : Token.Kind} {leaf : Expr} (hkind : tokens.current.kind = kind)
    (heof : kind ≠ .eof) (hleaf : Leaf tokens.current leaf)
    (h : (pure leaf : Rule Expr).Reads tokens.advance e rest) :
    ∃ ts, tokens = rest.prepend ts ∧ Primary ts e := by
  obtain ⟨rfl, rfl⟩ := reads_pure.mp h
  exact ⟨_, prepend_current hkind heof, .leaf hleaf⟩

theorem sign_sound {kind : Token.Kind} {op : UnaryOp} (hexpression : ExpressionSound expression)
    (hkind : tokens.current.kind = kind) (heof : kind ≠ .eof) (hsign : (kind, op) ∈ signs)
    (h : (do return .unary op (← expression .unary) : Rule Expr).Reads tokens.advance e rest) :
    ∃ ts, tokens = rest.prepend ts ∧ Unary ts e ∧ Stops .unary rest := by
  obtain ⟨operand, _, hoperand, h⟩ := reads_bind.mp h
  obtain ⟨rfl, rfl⟩ := reads_pure.mp h
  obtain ⟨ts, hts, hchain, hstops⟩ := hexpression _ _ _ _ (by decide) hoperand
  have htokens := prepend_current hkind heof
  rw [hts, Tokens.prepend_prepend] at htokens
  cases hchain with
  | operand hunary => exact ⟨_, htokens, .sign (hkind ▸ hsign) hunary, hstops⟩

theorem conditional_sound (hexpression : ExpressionSound expression) (hblock : BlockSound block)
    (hkind : tokens.current.kind = .ifWord)
    (h : (do
      let condition ← condition (expression .lowest)
      let consequence ← block
      if ← accept .elseWord then
        return .conditional condition consequence (some (← block))
      else
        return .conditional condition consequence none : Rule Expr).Reads tokens.advance e rest) :
    ∃ ts, tokens = rest.prepend ts ∧ Primary ts e := by
  obtain ⟨c, _, hc, h⟩ := reads_bind.mp h
  obtain ⟨body, middle, hbody, h⟩ := reads_bind.mp h
  obtain ⟨cs, hcs, hc⟩ := condition_sound hexpression hc
  obtain ⟨bs, hbs, hbody⟩ := hblock _ _ _ hbody
  have htokens := prepend_current hkind (by decide)
  rw [hcs, hbs] at htokens
  rw [reads_accept_bind] at h
  split at h
  next helse =>
    simp only [↓reduceIte] at h
    obtain ⟨alternative, _, halternative, h⟩ := reads_bind.mp h
    obtain ⟨rfl, rfl⟩ := reads_pure.mp h
    obtain ⟨as, has, halternative⟩ := hblock _ _ _ halternative
    rw [prepend_current helse (by decide), has] at htokens
    simp only [Tokens.prepend_prepend] at htokens
    exact ⟨_, htokens, by simpa using Primary.alternative hkind hc hbody helse halternative⟩
  next =>
    simp only [Bool.false_eq_true, ↓reduceIte] at h
    obtain ⟨rfl, rfl⟩ := reads_pure.mp h
    simp only [Tokens.prepend_prepend] at htokens
    exact ⟨_, htokens, by simpa using Primary.conditional hkind hc hbody⟩

theorem loop_sound (hexpression : ExpressionSound expression) (hblock : BlockSound block)
    (hkind : tokens.current.kind = .whileWord)
    (h : (do
      let condition ← condition (expression .lowest)
      return .loop condition (← block) : Rule Expr).Reads tokens.advance e rest) :
    ∃ ts, tokens = rest.prepend ts ∧ Primary ts e := by
  obtain ⟨c, _, hc, h⟩ := reads_bind.mp h
  obtain ⟨body, _, hbody, h⟩ := reads_bind.mp h
  obtain ⟨rfl, rfl⟩ := reads_pure.mp h
  obtain ⟨cs, hcs, hc⟩ := condition_sound hexpression hc
  obtain ⟨bs, hbs, hbody⟩ := hblock _ _ _ hbody
  have htokens := prepend_current hkind (by decide)
  rw [hcs, hbs] at htokens
  simp only [Tokens.prepend_prepend] at htokens
  exact ⟨_, htokens, by simpa using Primary.loop hkind hc hbody⟩

theorem function_sound (hblock : BlockSound block) (hkind : tokens.current.kind = .fnWord)
    (h : (do
      let _ ← expect .lparen
      let params ← commaList Rule.name .rparen
      return .function params (← block) : Rule Expr).Reads tokens.advance e rest) :
    ∃ ts, tokens = rest.prepend ts ∧ Primary ts e := by
  rw [reads_expect_bind] at h
  obtain ⟨hopen, h⟩ := h
  obtain ⟨params, _, hparams, h⟩ := reads_bind.mp h
  obtain ⟨body, _, hbody, h⟩ := reads_bind.mp h
  obtain ⟨rfl, rfl⟩ := reads_pure.mp h
  obtain ⟨ps, close, hps, hclose, hparams⟩ := params_sound hparams
  obtain ⟨bs, hbs, hbody⟩ := hblock _ _ _ hbody
  have htokens := prepend_current hkind (by decide)
  rw [prepend_current hopen (by decide), hps, hbs] at htokens
  simp only [Tokens.prepend_prepend] at htokens
  exact ⟨_, htokens, by simpa using Primary.function hkind hopen hparams hclose hbody⟩

/-- An operand is a primary expression, or has an operator in front and takes every suffix that
binds its own operand. -/
theorem operand_sound (hexpression : ExpressionSound expression) (hblock : BlockSound block)
    (h : (operand expression block).Reads tokens e rest) :
    ∃ ts, tokens = rest.prepend ts ∧ (Primary ts e ∨ Unary ts e ∧ Stops .unary rest) := by
  rw [operand, reads_peek_bind] at h
  have hprimary (hsound : ∃ ts, tokens = rest.prepend ts ∧ Primary ts e) :
      ∃ ts, tokens = rest.prepend ts ∧ (Primary ts e ∨ Unary ts e ∧ Stops .unary rest) := by
    obtain ⟨ts, hts, he⟩ := hsound
    exact ⟨ts, hts, .inl he⟩
  have hsigned (hsound : ∃ ts, tokens = rest.prepend ts ∧ Unary ts e ∧ Stops .unary rest) :
      ∃ ts, tokens = rest.prepend ts ∧ (Primary ts e ∨ Unary ts e ∧ Stops .unary rest) := by
    obtain ⟨ts, hts, he⟩ := hsound
    exact ⟨ts, hts, .inr he⟩
  split at h
  next hkind =>
    rw [reads_skip_bind] at h
    exact hprimary (leaf_sound hkind (by decide) (.ident hkind) h)
  next hkind =>
    rw [reads_skip_bind] at h
    split at h
    next n hn => exact hprimary (leaf_sound hkind (by decide) (.int hkind hn) h)
    next => simp at h
  next hkind =>
    rw [reads_skip_bind] at h
    split at h
    next x hx =>
      obtain ⟨hread, hfinite⟩ := Option.filter_eq_some_iff.mp hx
      exact hprimary (leaf_sound hkind (by decide) (.float hkind hread hfinite) h)
    next => simp at h
  next hkind =>
    rw [reads_skip_bind] at h
    exact hprimary (leaf_sound hkind (by decide) (.string hkind) h)
  next hkind =>
    rw [reads_skip_bind] at h
    exact hprimary (leaf_sound hkind (by decide) (.trueWord hkind) h)
  next hkind =>
    rw [reads_skip_bind] at h
    exact hprimary (leaf_sound hkind (by decide) (.falseWord hkind) h)
  next hkind =>
    rw [reads_skip_bind] at h
    exact hsigned (sign_sound hexpression hkind (by decide) (by simp [signs]) h)
  next hkind =>
    rw [reads_skip_bind] at h
    exact hsigned (sign_sound hexpression hkind (by decide) (by simp [signs]) h)
  next hkind =>
    rw [reads_skip_bind, reads_bind] at h
    obtain ⟨e, middle, he, h⟩ := h
    rw [reads_expect_bind, reads_pure] at h
    obtain ⟨hclose, rfl, rfl⟩ := h
    obtain ⟨ts, hts, hchain, -⟩ := hexpression _ _ _ _ (by decide) he
    have htokens := prepend_current hkind (by decide)
    rw [hts, prepend_current hclose (by decide), Tokens.prepend_prepend,
      Tokens.prepend_prepend] at htokens
    exact ⟨_, htokens, .inl (.group hkind hchain hclose)⟩
  next hkind =>
    rw [reads_skip_bind, reads_bind] at h
    obtain ⟨es, _, hes, h⟩ := h
    obtain ⟨rfl, rfl⟩ := reads_pure.mp h
    obtain ⟨ts, close, hts, hclose, hargs⟩ := args_sound hexpression (by decide) hes
    have htokens := prepend_current hkind (by decide)
    rw [hts, Tokens.prepend_prepend] at htokens
    exact ⟨_, htokens, .inl (.array hkind hargs hclose)⟩
  next hkind =>
    rw [reads_skip_bind] at h
    exact hprimary (conditional_sound hexpression hblock hkind h)
  next hkind =>
    rw [reads_skip_bind] at h
    exact hprimary (loop_sound hexpression hblock hkind h)
  next hkind =>
    rw [reads_skip_bind] at h
    exact hprimary (function_sound hblock hkind h)
  next => simp at h

/-- How an operand stands before the rest of the tokens: it takes suffixes of every strength, or
nothing that follows binds more tightly than its own outermost operator. -/
inductive Settled (min : Precedence) (ts : List Token) (e : Expr) (rest : Tokens) : Prop
  | suffixed : Suffixed ts e → Settled min ts e rest
  | bounded (p : Precedence) : min < p ∨ p = .unary → p ≤ .unary →
      Chain (strata.drop (p.level - 1)) ts e → Stops p rest → Settled min ts e rest

theorem Settled.chain {min : Precedence} {ts : List Token} (h : Settled min ts e rest) :
    Chain (strata.drop min.level) ts e := by
  cases h with
  | suffixed h => exact Unary.chain (.suffixed h)
  | bounded p hmin _ h _ =>
      rcases hmin with hlt | rfl
      · exact h.loosen (Nat.le_sub_one_of_lt hlt)
      · cases h with
        | operand h => exact h.chain

/-- Before an argument list or an index, an operand takes suffixes of every strength. -/
theorem Settled.suffixed_of_lt {min : Precedence} {ts : List Token} {suffix : Suffix}
    (h : Settled min ts e rest) (hsuffix : Suffix.ofKind? rest.kind = some suffix)
    (hlt : .unary < suffix.precedence) : Suffixed ts e := by
  cases h with
  | suffixed h => exact h
  | bounded p _ hle _ hstops =>
      have hbound : suffix.precedence.level ≤ p.level := hstops suffix hsuffix
      exact absurd (Nat.lt_of_lt_of_le hlt (Nat.le_trans hbound hle)) (Nat.lt_irrefl _)

/-- Before an operator, an operand lies in the stratum of the operator. -/
theorem Settled.chain_of_binary {min : Precedence} {ts : List Token} {op : BinaryOp}
    (h : Settled min ts e rest) (hsuffix : Suffix.ofKind? rest.kind = some (.binary op)) :
    Chain (strata.drop (op.precedence.level - 1)) ts e := by
  cases h with
  | suffixed h => exact Unary.chain (.suffixed h)
  | bounded p _ _ h hstops => exact h.loosen (Nat.sub_le_sub_right (hstops _ hsuffix) 1)

/-- One suffix keeps an operand settled, as the right operand of an operator takes everything that
binds more tightly than the operator. -/
theorem extend_sound (hexpression : ExpressionSound expression) {min : Precedence}
    {suffix : Suffix} {ts : List Token} {left : Expr} (hleft : Settled min ts left tokens)
    (hsuffix : Suffix.ofKind? tokens.kind = some suffix) (hmin : min < suffix.precedence)
    (h : (extend expression left suffix).Reads tokens.advance e rest) :
    ∃ us, us ≠ [] ∧ tokens = rest.prepend us ∧ Settled min (ts ++ us) e rest := by
  have hne : tokens.kind ≠ .eof := by
    intro heof
    simp [heof, Suffix.ofKind?] at hsuffix
  have htokens := Tokens.eq_prepend_advance hne
  cases suffix with
  | call =>
      have hkind : tokens.kind = .lparen := by
        revert hsuffix
        cases tokens.kind <;> simp [Suffix.ofKind?]
      obtain ⟨args, _, hargs, h⟩ := reads_bind.mp h
      obtain ⟨rfl, rfl⟩ := reads_pure.mp h
      obtain ⟨us, close, hus, hclose, hargs⟩ := args_sound hexpression (by decide) hargs
      rw [hus, Tokens.prepend_prepend] at htokens
      have hcall := hleft.suffixed_of_lt hsuffix (by decide)
      exact ⟨_, by simp, htokens, .suffixed (.call hcall hkind hargs hclose)⟩
  | index =>
      have hkind : tokens.kind = .lbracket := by
        revert hsuffix
        cases tokens.kind <;> simp [Suffix.ofKind?]
      obtain ⟨i, middle, hi, h⟩ := reads_bind.mp h
      rw [reads_expect_bind, reads_pure] at h
      obtain ⟨hclose, rfl, rfl⟩ := h
      obtain ⟨us, hus, hchain, -⟩ := hexpression _ _ _ _ (by decide) hi
      rw [hus, prepend_current hclose (by decide), Tokens.prepend_prepend,
        Tokens.prepend_prepend] at htokens
      have hindex := hleft.suffixed_of_lt hsuffix (by decide)
      exact ⟨_, by simp, htokens, .suffixed (.index hindex hkind hchain hclose)⟩
  | binary op =>
      obtain ⟨right, _, hright, h⟩ := reads_bind.mp h
      obtain ⟨rfl, rfl⟩ := reads_pure.mp h
      have hle : op.precedence ≤ .unary := by cases op <;> decide
      obtain ⟨us, hus, hright, hstops⟩ := hexpression _ _ _ _ hle hright
      rw [hus, Tokens.prepend_prepend] at htokens
      have hchain := hleft.chain_of_binary hsuffix
      obtain ⟨ops, hdrop, hmem⟩ := exists_stratum hsuffix
      refine ⟨_, by simp, htokens, .bounded op.precedence (.inl hmin) hle ?_ hstops⟩
      rw [hdrop] at hchain ⊢
      exact .binary hchain hmem hright

/-- Extending an operand step by step ends with an expression of the strata above `min`. A loop that
is out of steps has no tokens left, so nothing can follow. -/
theorem suffixes_sound (hexpression : ExpressionSound expression) {min : Precedence} {count : Nat}
    {ts : List Token} {left : Expr} (hleft : Settled min ts left tokens)
    (hcount : tokens.front.length ≤ count)
    (h : (suffixes expression min count left).Reads tokens e rest) :
    ∃ us, tokens = rest.prepend us ∧ Chain (strata.drop min.level) (ts ++ us) e ∧
      Stops min rest := by
  induction count generalizing tokens ts left with
  | zero =>
      obtain ⟨rfl, rfl⟩ := reads_pure.mp h
      have hfront := List.eq_nil_of_length_eq_zero (Nat.le_zero.mp hcount)
      have heof := Tokens.kind_of_front_eq_nil hfront
      refine ⟨[], rfl, by simpa using hleft.chain, ?_⟩
      intro suffix hsuffix
      simp [heof, Suffix.ofKind?] at hsuffix
  | succ count ih =>
      rw [suffixes, reads_peek_bind] at h
      split at h
      next hnone =>
        obtain ⟨rfl, rfl⟩ := reads_pure.mp h
        refine ⟨[], rfl, by simpa using hleft.chain, ?_⟩
        intro suffix hsuffix
        rw [Tokens.kind, hnone] at hsuffix
        simp at hsuffix
      next suffix hsuffix =>
        split at h
        next hmin =>
          rw [reads_skip_bind, reads_bind] at h
          obtain ⟨e', middle, hextend, h⟩ := h
          obtain ⟨us, hne, rfl, hsettled⟩ := extend_sound hexpression hleft hsuffix hmin hextend
          -- A suffix has at least one token, so the remaining steps are enough for what is left.
          have hlength : middle.front.length ≤ count := by
            have hpos := List.length_pos_iff.mpr hne
            simp only [Tokens.front_prepend, List.length_append] at hcount
            omega
          obtain ⟨vs, rfl, hchain, hstops⟩ := ih hsettled hlength h
          exact ⟨us ++ vs, by simp, by simpa using hchain, hstops⟩
        next hmin =>
          obtain ⟨rfl, rfl⟩ := reads_pure.mp h
          refine ⟨[], rfl, by simpa using hleft.chain, ?_⟩
          intro suffix' hsuffix'
          rw [Tokens.kind, hsuffix, Option.some.injEq] at hsuffix'
          subst hsuffix'
          exact Nat.le_of_not_lt hmin

theorem Stops.delimited {s : Stmt} (h : Stops .lowest rest) : Delimited s rest.front := by
  have hnext : ∀ t ∈ rest.front.head?, t.kind ∉ extending := by
    intro t ht hmem
    have hkind : rest.kind = t.kind := by
      simp [Tokens.kind, Tokens.current, List.headD_eq_head?_getD, Option.mem_def.mp ht]
    obtain ⟨suffix, hsuffix⟩ := Option.isSome_iff_exists.mp ((mem_extending_iff _).mp hmem)
    have hle := h suffix (hkind ▸ hsuffix)
    revert hle
    rcases suffix with _ | _ | op
    · decide
    · decide
    · cases op <;> decide
  cases s with
  | block => trivial
  | _ => exact hnext

theorem Delimited.of_append {s : Stmt} {us vs : List Token} (h : Delimited s (us ++ vs)) :
    Delimited s us := by
  cases s with
  | block => trivial
  | _ =>
      intro t ht
      cases us with
      | nil => simp at ht
      | cons u us => exact h t ht

/-- The end of a statement: a semicolon, or a token that is left alone. -/
theorem accept_semicolon_sound {s s' : Stmt} {middle : Tokens}
    (h : Reads (do let _ ← accept .semicolon; return s') middle s rest) :
    s' = s ∧ (middle = rest ∨ ∃ t, t.kind = .semicolon ∧ middle = rest.prepend [t]) := by
  rw [reads_accept_bind] at h
  split at h
  next hkind =>
    obtain ⟨rfl, rfl⟩ := reads_pure.mp h
    exact ⟨rfl, .inr ⟨_, hkind, prepend_current hkind (by decide)⟩⟩
  next =>
    obtain ⟨rfl, rfl⟩ := reads_pure.mp h
    exact ⟨rfl, .inl rfl⟩

/-- A statement, then a semicolon if there is one. -/
theorem statement_sound (hexpression : ExpressionSound expression) (hblock : BlockSound block)
    {s : Stmt} (h : (statement (expression .lowest) block).Reads tokens s rest) :
    ∃ ts middle, tokens = middle.prepend ts ∧ Statement ts s ∧ Delimited s middle.front ∧
      (middle = rest ∨ ∃ t, t.kind = .semicolon ∧ middle = rest.prepend [t]) := by
  rw [statement, reads_peek_bind] at h
  dsimp only at h
  split at h
  next hkind =>
    rw [reads_skip_bind, reads_bind] at h
    obtain ⟨name, _, hname, h⟩ := h
    obtain ⟨hident, rfl, rfl⟩ := reads_name.mp hname
    rw [reads_expect_bind, reads_bind] at h
    obtain ⟨hassign, e, _, he, h⟩ := h
    rw [pure_bind] at h
    obtain ⟨rfl, hrest⟩ := accept_semicolon_sound h
    obtain ⟨ts, hts, hchain, hstops⟩ := hexpression _ _ _ _ (by decide) he
    have htokens := prepend_current hkind (by decide)
    rw [prepend_current hident (by decide), prepend_current hassign (by decide), hts] at htokens
    simp only [Tokens.prepend_prepend] at htokens
    exact ⟨_, _, htokens, .bind hkind hident hassign hchain, hstops.delimited, hrest⟩
  next hkind =>
    rw [reads_skip_bind, reads_bind] at h
    obtain ⟨e, _, he, h⟩ := h
    rw [pure_bind] at h
    obtain ⟨rfl, hrest⟩ := accept_semicolon_sound h
    obtain ⟨ts, hts, hchain, hstops⟩ := hexpression _ _ _ _ (by decide) he
    have htokens := prepend_current hkind (by decide)
    rw [hts, Tokens.prepend_prepend] at htokens
    exact ⟨_, _, htokens, .ret hkind hchain, hstops.delimited, hrest⟩
  next =>
    obtain ⟨body, _, hbody, h⟩ := reads_bind.mp h
    rw [pure_bind] at h
    obtain ⟨rfl, hrest⟩ := accept_semicolon_sound h
    obtain ⟨ts, hts, hbody⟩ := hblock _ _ _ hbody
    exact ⟨_, _, hts, .block hbody, trivial, hrest⟩
  next =>
    obtain ⟨e, _, he, h⟩ := reads_bind.mp h
    rw [pure_bind] at h
    obtain ⟨rfl, hrest⟩ := accept_semicolon_sound h
    obtain ⟨ts, hts, hchain, hstops⟩ := hexpression _ _ _ _ (by decide) he
    exact ⟨_, _, hts, .expr hchain, hstops.delimited, hrest⟩

/-- A statement takes at least one token. -/
theorem statement_progress (hexpression : ExpressionSound expression) (hblock : BlockSound block)
    {s : Stmt} (h : (statement (expression .lowest) block).Reads tokens s rest) :
    rest.front.length < tokens.front.length := by
  obtain ⟨ts, middle, rfl, hs, -, hmiddle⟩ := statement_sound hexpression hblock h
  have hpos := hs.length_pos
  rcases hmiddle with rfl | ⟨t, -, rfl⟩
  · simp only [Tokens.front_prepend, List.length_append]
    omega
  · simp only [Tokens.front_prepend, List.length_append]
    omega

/-- A statement that was read takes its place before statements that were read. -/
theorem Statements.cons {ts us : List Token} {s : Stmt} {body : List Stmt} {middle middle' : Tokens}
    (hs : Statement ts s) (hdelimited : Delimited s middle.front)
    (hmiddle : middle = middle' ∨ ∃ t, t.kind = .semicolon ∧ middle = middle'.prepend [t])
    (hus : middle' = rest.prepend us) (hbody : Statements us body) :
    ∃ vs, middle.prepend ts = rest.prepend vs ∧ Statements vs (s :: body) := by
  subst hus
  rcases hmiddle with rfl | ⟨t, ht, rfl⟩
  · exact ⟨ts ++ us, by simp, .bare hs hdelimited.of_append hbody⟩
  · exact ⟨ts ++ t :: us, by simp, .closed hs ht hbody⟩

/-- The statements of a block, up to what ends it. -/
theorem statements_sound (hexpression : ExpressionSound expression) (hblock : BlockSound block)
    {body : List Stmt}
    (h : (statements (statement (expression .lowest) block)).Reads tokens body rest) :
    ∃ ts, tokens = rest.prepend ts ∧ Statements ts body := by
  obtain ⟨items, _, hitems, h⟩ := reads_bind.mp h
  obtain ⟨rfl, rfl⟩ := reads_pure.mp h
  refine manyToEnd_induct (motive := fun tokens items rest =>
    ∃ ts, tokens = rest.prepend ts ∧ Statements ts items.flatten) ?_ ?_ ?_ ?_ hitems
  · intro tokens rest hstop
    rw [reads_blockItem] at hstop
    split_ifs at hstop
    · exact ⟨[], hstop.2, .nil⟩
    · simp at hstop
    · simp at hstop
  · intro tokens _
    exact ⟨[], rfl, .nil⟩
  · rintro tokens item middle items rest hitem ⟨us, hus, hbody⟩
    rw [reads_blockItem] at hitem
    split_ifs at hitem with hend hsemicolon
    · simp at hitem
    · obtain ⟨heq, rfl⟩ := hitem
      cases heq
      have htokens := prepend_current hsemicolon (by decide)
      rw [hus, Tokens.prepend_prepend] at htokens
      exact ⟨_, htokens, .separator hsemicolon hbody⟩
    · obtain ⟨s, hs, heq⟩ := hitem
      cases heq
      obtain ⟨ts, middle', rfl, hs, hdelimited, hmiddle⟩ := statement_sound hexpression hblock hs
      exact Statements.cons hs hdelimited hmiddle hus hbody
  · -- every item takes at least one token
    intro tokens item middle hitem
    rw [reads_blockItem] at hitem
    split_ifs at hitem with hend hsemicolon
    · simp at hitem
    · obtain ⟨-, rfl⟩ := hitem
      rw [prepend_current hsemicolon (by decide)]
      simp
    · obtain ⟨s, hs, -⟩ := hitem
      exact statement_progress hexpression hblock hs

end Rules

/-- Nested rules are sound at every depth. At depth zero nothing is read. -/
theorem expression_block_sound (depth : Nat) :
    ExpressionSound (Rule.expression depth) ∧ BlockSound (Rule.block depth) := by
  induction depth with
  | zero =>
      constructor
      · intro min tokens e rest _ h
        rw [Rule.expression, reads_peek_bind] at h
        simp at h
      · intro tokens body rest h
        rw [Rule.block, reads_peek_bind] at h
        simp at h
  | succ depth ih =>
      obtain ⟨hexpression, hblock⟩ := ih
      constructor
      · intro min tokens e rest _ h
        rw [Rule.expression, reads_bind] at h
        obtain ⟨left, middle, hoperand, h⟩ := h
        obtain ⟨_, _, hget, h⟩ := reads_bind.mp h
        obtain ⟨rfl, rfl⟩ := reads_get.mp hget
        obtain ⟨ts, rfl, hleft⟩ := operand_sound hexpression hblock hoperand
        -- A sign has already taken every suffix that binds more tightly than it does.
        have hsettled : Settled min ts left middle := by
          rcases hleft with hprimary | ⟨hunary, hstops⟩
          · exact .suffixed (.primary hprimary)
          · exact .bounded .unary (.inr rfl) (by decide) hunary.chain hstops
        obtain ⟨us, rfl, hchain, hstops⟩ :=
          suffixes_sound hexpression hsettled (Nat.le_refl _) h
        exact ⟨ts ++ us, by simp, hchain, hstops⟩
      · intro tokens body rest h
        rw [Rule.block, reads_expect_bind] at h
        obtain ⟨hopen, h⟩ := h
        obtain ⟨_, middle, hbody, h⟩ := reads_bind.mp h
        rw [reads_expect_bind, reads_pure] at h
        obtain ⟨hclose, rfl, rfl⟩ := h
        obtain ⟨ts, hts, hbody⟩ := statements_sound hexpression hblock hbody
        have htokens := prepend_current hopen (by decide)
        rw [hts, prepend_current hclose (by decide), Tokens.prepend_prepend,
          Tokens.prepend_prepend] at htokens
        exact ⟨_, htokens, .mk hopen hbody hclose⟩

end Monkey.Grammar
