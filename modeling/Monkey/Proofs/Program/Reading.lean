import Monkey.Proofs.Program.Rules

/-! # How far rules read

Whether a rule succeeds or fails, what it leaves is the end of what it was given, and no end marker
is among the tokens that it has read. A rule that fails reports one of the tokens that it has read
or the one at which it stopped. An illegal token is reported as such where an expression may start;
where a certain kind of token has to stand, that kind is reported missing (`Cause.Blames`).
-/

namespace Monkey

namespace Diagnostic

/-- What the cause says of a token is true of the given one. -/
def Cause.Fits (t : Token) : Cause → Prop
  | unexpected _ found => t.kind = found
  | noOperand found => t.kind = found
  | illegal literal => t.kind = .illegal ∧ t.literal = literal
  | invalidInteger literal => t.kind = .int ∧ t.literal = literal
  | invalidFloat literal => t.kind = .float ∧ t.literal = literal

/-- The diagnostic is located at the token. -/
def IsAt (d : Diagnostic) (t : Token) : Prop :=
  d.position = t.position ∧ d.cause.Fits t

/-- The kinds of tokens that have to stand somewhere. -/
def requiredKinds : List Token.Kind :=
  [.ident, .assign, .lparen, .rparen, .lbrace, .rbrace, .rbracket]

/-- What the cause says of the token is true, and an illegal token is called illegal or stands where
a certain kind is required. -/
def Cause.Blames (t : Token) (cause : Cause) : Prop :=
  cause.Fits t ∧ (t.kind = .illegal → cause = .illegal t.literal ∨
    ∃ expected ∈ requiredKinds, cause = .unexpected expected .illegal)

/-- The diagnostic is located at the token and blames it. -/
def Blames (d : Diagnostic) (t : Token) : Prop :=
  d.position = t.position ∧ d.cause.Blames t

theorem Blames.isAt {d : Diagnostic} {t : Token} (h : d.Blames t) : d.IsAt t :=
  ⟨h.1, h.2.1⟩

theorem Cause.Blames.of_fits {cause : Cause} {t : Token} (hcause : cause.Fits t)
    (hkind : t.kind ≠ .illegal) : cause.Blames t :=
  ⟨hcause, fun hillegal => absurd hillegal hkind⟩

theorem Cause.Blames.unexpected {kind : Token.Kind} (hkind : kind ∈ requiredKinds) (t : Token) :
    (Cause.unexpected kind t.kind).Blames t :=
  ⟨rfl, fun hillegal => .inr ⟨kind, hkind, congrArg _ hillegal⟩⟩

theorem ne_eof_of_required {kind : Token.Kind} (hkind : kind ∈ requiredKinds) : kind ≠ .eof := by
  rintro rfl
  revert hkind
  decide

end Diagnostic

namespace Rule

variable {α β : Type} {tokens : Tokens}

theorem noOperand_blames (t : Token) : (noOperand t).Blames t := by
  unfold noOperand
  split
  next hkind => exact ⟨⟨hkind, rfl⟩, fun _ => .inl rfl⟩
  next hkind => exact .of_fits rfl hkind

/-- Of these tokens the rule reads some that are no end markers, and if it fails, then at one of
them or at the next. -/
def CarefulAt (rule : Rule α) (tokens : Tokens) : Prop :=
  ∃ ts, tokens = (rule.outcome tokens).2.prepend ts ∧ (∀ t ∈ ts, t.kind ≠ .eof) ∧
    ∀ d, (rule.outcome tokens).1 = .error d →
      ∃ t ∈ ts ++ [(rule.outcome tokens).2.current], d.Blames t

/-- The rule reads no end marker, and it fails only at tokens that it has read or at the next. -/
def Careful (rule : Rule α) : Prop :=
  ∀ tokens, rule.CarefulAt tokens

theorem isSuffix_of_reads {rule : Rule α} {a : α} {rest : Tokens} (hcareful : Careful rule)
    (hreads : rule.Reads tokens a rest) : rest.IsSuffix tokens := by
  obtain ⟨ts, htokens, -⟩ := hcareful tokens
  rw [show rule.outcome tokens = _ from hreads] at htokens
  exact ⟨ts, htokens⟩

theorem CarefulAt.bind {rule : Rule α} {next : α → Rule β} (hrule : rule.CarefulAt tokens)
    (hnext : ∀ a middle, rule.Reads tokens a middle → (next a).CarefulAt middle) :
    (rule >>= next).CarefulAt tokens := by
  obtain ⟨ts, htokens, hts, herror⟩ := hrule
  rw [CarefulAt, outcome_bind]
  rcases hrun : rule.outcome tokens with ⟨d | a, middle⟩
  · rw [hrun] at htokens herror
    refine ⟨ts, htokens, hts, fun d' hd' => herror d' ?_⟩
    cases hd'
    rfl
  · rw [hrun] at htokens
    obtain ⟨us, hmiddle, hus, herror'⟩ := hnext a middle hrun
    refine ⟨ts ++ us, ?_, ?_, fun d hd => ?_⟩
    · rw [htokens, Tokens.prepend_append, ← hmiddle]
    · intro t ht
      rcases List.mem_append.mp ht with ht | ht
      · exact hts t ht
      · exact hus t ht
    · obtain ⟨t, ht, hat⟩ := herror' d hd
      refine ⟨t, ?_, hat⟩
      rw [List.append_assoc]
      exact List.mem_append_right ts ht

theorem carefulAt_peek_bind {next : Token → Rule β} (h : (next tokens.current).CarefulAt tokens) :
    (peek >>= next).CarefulAt tokens :=
  h

theorem carefulAt_skip_bind {next : Unit → Rule β} (hkind : tokens.kind ≠ .eof)
    (h : (next ()).CarefulAt tokens.advance) : (skip >>= next).CarefulAt tokens := by
  have hskip : skip.CarefulAt tokens := by
    refine ⟨[tokens.current], Tokens.eq_prepend_advance hkind, ?_, nofun⟩
    intro t ht
    cases List.mem_singleton.mp ht
    exact hkind
  refine hskip.bind fun _ middle hmiddle => ?_
  rw [← reads_skip.mp hmiddle]
  exact h

theorem carefulAt_fail {cause : Diagnostic.Cause} (hcause : cause.Blames tokens.current) :
    (fail cause tokens.current : Rule α).CarefulAt tokens := by
  refine ⟨[], rfl, nofun, ?_⟩
  rintro d ⟨⟩
  exact ⟨tokens.current, List.mem_singleton.mpr rfl, rfl, hcause⟩

/-- A failure at the token that was read last. -/
theorem carefulAt_skip_fail {cause : Diagnostic.Cause} (hkind : tokens.kind ≠ .eof)
    (hcause : cause.Blames tokens.current) :
    (do skip; fail cause tokens.current : Rule α).CarefulAt tokens := by
  refine ⟨[tokens.current], Tokens.eq_prepend_advance hkind, ?_, ?_⟩
  · intro t ht
    cases List.mem_singleton.mp ht
    exact hkind
  · rintro d ⟨⟩
    exact ⟨tokens.current, List.mem_cons_self, rfl, hcause⟩

namespace Careful

theorem pure (a : α) : Careful (Pure.pure a) :=
  fun _ => ⟨[], rfl, nofun, nofun⟩

theorem get : Careful (MonadState.get : Rule Tokens) :=
  fun _ => ⟨[], rfl, nofun, nofun⟩

theorem bind {rule : Rule α} {next : α → Rule β} (hrule : Careful rule)
    (hnext : ∀ a, Careful (next a)) : Careful (rule >>= next) :=
  fun tokens => (hrule tokens).bind fun a middle _ => hnext a middle

variable {kind : Token.Kind}

theorem accept (hkind : kind ≠ .eof) : Careful (accept kind) := by
  intro tokens
  apply carefulAt_peek_bind
  split
  next hfound => exact carefulAt_skip_bind (hfound.trans_ne hkind) (Careful.pure _ _)
  next => exact Careful.pure _ _

theorem expect (hkind : kind ∈ Diagnostic.requiredKinds) : Careful (expect kind) := by
  intro tokens
  apply carefulAt_peek_bind
  split
  next hfound =>
    have hne := Diagnostic.ne_eof_of_required hkind
    exact carefulAt_skip_bind (hfound.trans_ne hne) (Careful.pure _ _)
  next => exact carefulAt_fail (.unexpected hkind _)

theorem many {step : Rule (Option α)} (hstep : Careful step) (count : Nat) :
    Careful (many step count) := by
  induction count with
  | zero => exact .pure _
  | succ count ih =>
      refine hstep.bind fun item => ?_
      cases item with
      | none => exact .pure _
      | some a => exact ih.bind fun _ => .pure _

theorem manyToEnd {step : Rule (Option α)} (hstep : Careful step) : Careful (manyToEnd step) :=
  Careful.get.bind fun _ => hstep.many _

theorem name : Careful name :=
  (Careful.expect (by decide)).bind fun _ => .pure _

theorem commaList {item : Rule α} (hitem : Careful item)
    (hkind : kind ∈ Diagnostic.requiredKinds) : Careful (commaList item kind) := by
  have hfurther : Careful (furtherItem item) := by
    refine (Careful.accept (by decide)).bind fun found => ?_
    split
    · exact hitem.bind fun _ => .pure _
    · exact .pure _
  refine (Careful.accept (Diagnostic.ne_eof_of_required hkind)).bind fun found => ?_
  split
  · exact .pure _
  · refine hitem.bind fun _ => hfurther.manyToEnd.bind fun _ => ?_
    exact (Careful.expect hkind).bind fun _ => .pure _

theorem condition {expression : Rule Expr} (hexpression : Careful expression) :
    Careful (condition expression) := by
  refine (Careful.expect (by decide)).bind fun _ => hexpression.bind fun _ => ?_
  exact (Careful.expect (by decide)).bind fun _ => .pure _

theorem statement {expression : Rule Expr} {block : Rule Block} (hexpression : Careful expression)
    (hblock : Careful block) : Careful (statement expression block) := by
  have hend : ∀ s : Stmt, Careful (do let _ ← Rule.accept .semicolon; return s) :=
    fun s => (Careful.accept (by decide)).bind fun _ => .pure _
  intro tokens
  apply carefulAt_peek_bind
  dsimp only
  split
  next hkind =>
    apply carefulAt_skip_bind (hkind.trans_ne (by decide))
    refine (Careful.name.bind fun _ => (Careful.expect (by decide)).bind fun _ => ?_) _
    exact hexpression.bind fun _ => (Careful.pure _).bind hend
  next hkind =>
    apply carefulAt_skip_bind (hkind.trans_ne (by decide))
    exact (hexpression.bind fun _ => (Careful.pure _).bind hend) _
  next => exact (hblock.bind fun _ => (Careful.pure _).bind hend) _
  next => exact (hexpression.bind fun _ => (Careful.pure _).bind hend) _

theorem blockItem {statement : Rule Stmt} (hstatement : Careful statement) :
    Careful (blockItem statement) := by
  intro tokens
  apply carefulAt_peek_bind
  split
  next => exact Careful.pure _ _
  next => exact Careful.pure _ _
  next hkind => exact carefulAt_skip_bind (hkind.trans_ne (by decide)) (Careful.pure _ _)
  next => exact (hstatement.bind fun _ => .pure _) _

theorem statements {statement : Rule Stmt} (hstatement : Careful statement) :
    Careful (statements statement) :=
  hstatement.blockItem.manyToEnd.bind fun _ => .pure _

section Expressions

variable {expression : Precedence → Rule Expr} {block : Rule Block}

theorem operand (hexpression : ∀ min, Careful (expression min)) (hblock : Careful block) :
    Careful (operand expression block) := by
  intro tokens
  apply carefulAt_peek_bind
  -- Each case but the last starts with a token of its own kind, which is read first.
  have hskip {kind : Token.Kind} {next : Unit → Rule Expr} (hkind : tokens.kind = kind)
      (hne : kind ≠ .eof) (hnext : Careful (next ())) : (skip >>= next).CarefulAt tokens :=
    carefulAt_skip_bind (hkind.trans_ne hne) (hnext _)
  split
  next hkind => exact hskip hkind (by decide) (.pure _)
  next hkind =>
    split
    next => exact hskip hkind (by decide) (.pure _)
    next =>
      exact carefulAt_skip_fail (hkind.trans_ne (by decide))
        (.of_fits ⟨hkind, rfl⟩ (hkind.trans_ne (by decide)))
  next hkind =>
    split
    next => exact hskip hkind (by decide) (.pure _)
    next =>
      exact carefulAt_skip_fail (hkind.trans_ne (by decide))
        (.of_fits ⟨hkind, rfl⟩ (hkind.trans_ne (by decide)))
  next hkind => exact hskip hkind (by decide) (.pure _)
  next hkind => exact hskip hkind (by decide) (.pure _)
  next hkind => exact hskip hkind (by decide) (.pure _)
  next hkind => exact hskip hkind (by decide) ((hexpression _).bind fun _ => .pure _)
  next hkind => exact hskip hkind (by decide) ((hexpression _).bind fun _ => .pure _)
  next hkind =>
    refine hskip hkind (by decide) ((hexpression _).bind fun _ => ?_)
    exact (Careful.expect (by decide)).bind fun _ => .pure _
  next hkind =>
    exact hskip hkind (by decide) (((hexpression _).commaList (by decide)).bind fun _ => .pure _)
  next hkind =>
    refine hskip hkind (by decide) ((hexpression _).condition.bind fun _ => hblock.bind fun _ => ?_)
    refine (Careful.accept (by decide)).bind fun found => ?_
    split
    · exact hblock.bind fun _ => .pure _
    · exact .pure _
  next hkind =>
    refine hskip hkind (by decide) ((hexpression _).condition.bind fun _ => ?_)
    exact hblock.bind fun _ => .pure _
  next hkind =>
    refine hskip hkind (by decide) ((Careful.expect (by decide)).bind fun _ => ?_)
    exact (Careful.name.commaList (by decide)).bind fun _ => hblock.bind fun _ => .pure _
  next => exact carefulAt_fail (noOperand_blames _)

theorem extend (hexpression : ∀ min, Careful (expression min)) (left : Expr) (suffix : Suffix) :
    Careful (extend expression left suffix) := by
  cases suffix with
  | call => exact ((hexpression _).commaList (by decide)).bind fun _ => .pure _
  | index => exact (hexpression _).bind fun _ => (Careful.expect (by decide)).bind fun _ => .pure _
  | binary op => exact (hexpression _).bind fun _ => .pure _

theorem suffixes (hexpression : ∀ min, Careful (expression min)) (min : Precedence) (count : Nat)
    (left : Expr) : Careful (suffixes expression min count left) := by
  induction count generalizing left with
  | zero => exact .pure _
  | succ count ih =>
      intro tokens
      apply carefulAt_peek_bind
      split
      next => exact Careful.pure _ _
      next suffix hsuffix =>
        split
        next =>
          have hkind : tokens.kind ≠ .eof := by
            intro heof
            rw [← Tokens.kind, heof] at hsuffix
            cases hsuffix
          exact carefulAt_skip_bind hkind (((Careful.extend hexpression left suffix).bind ih) _)
        next => exact Careful.pure _ _

end Expressions

end Careful

theorem careful_expression_block (depth : Nat) :
    (∀ min, Careful (expression depth min)) ∧ Careful (block depth) := by
  induction depth with
  | zero =>
      constructor
      · intro _ tokens
        exact carefulAt_peek_bind (carefulAt_fail (noOperand_blames _))
      · intro tokens
        exact carefulAt_peek_bind (carefulAt_fail (.unexpected (by decide) _))
  | succ depth ih =>
      obtain ⟨hexpression, hblock⟩ := ih
      constructor
      · intro min
        refine (Careful.operand hexpression hblock).bind fun left => ?_
        refine Careful.get.bind fun tokens => ?_
        exact .suffixes hexpression _ _ _
      · refine (Careful.expect (by decide)).bind fun _ => ?_
        refine (Careful.statement (hexpression _) hblock).statements.bind fun _ => ?_
        exact (Careful.expect (by decide)).bind fun _ => .pure _

end Rule

end Monkey
