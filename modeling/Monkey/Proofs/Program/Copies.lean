import Monkey.Proofs.Program.Segments
import Monkey.Proofs.Token.Concatenation

/-! # Reading a copy of some tokens

The same tokens may stand further down in another sequence, with something else behind them. Rules
look at the kind and the literal of a token and never at its position, and they look at one token
behind those that they read. So a rule reads the copy like the original, unless it came to the end
marker of the original and the copy goes on there (`Alike`).
-/

namespace Monkey

/-- The same diagnostic, the given number of lines further down. -/
def Diagnostic.down (lines : Nat) (d : Diagnostic) : Diagnostic :=
  { d with position := d.position.down lines }

@[simp]
theorem Diagnostic.down_zero : Diagnostic.down 0 = id := rfl

namespace Tokens

/-- The tokens before the end marker, moved down, with the given tokens behind them. -/
def copy (lines : Nat) (tokens behind : Tokens) : Tokens :=
  behind.prepend (tokens.front.map (·.down lines))

/-- No other token marks the end, and if nothing stands behind the copy then its end marker is a
copy as well. -/
structure Copied (lines : Nat) (behind tokens : Tokens) : Prop where
  kind_ne : ∀ t ∈ tokens.front, t.kind ≠ .eof
  last_eq : behind.front = [] → behind.last = tokens.last.down lines

variable {lines : Nat} {behind tokens rest : Tokens}

theorem Copied.of_isSuffix (h : Copied lines behind tokens) (hrest : rest.IsSuffix tokens) :
    Copied lines behind rest := by
  refine ⟨fun t ht => h.kind_ne t (hrest.mem ht), fun hnil => ?_⟩
  obtain ⟨ts, rfl⟩ := hrest
  exact h.last_eq hnil

theorem front_copy : (tokens.copy lines behind).front =
    tokens.front.map (·.down lines) ++ behind.front := rfl

theorem length_front_copy : (tokens.copy lines behind).front.length =
    tokens.front.length + behind.front.length := by
  simp [front_copy]

theorem copy_of_nil (hnil : tokens.front = []) : tokens.copy lines behind = behind := by
  simp [copy, hnil]

theorem front_ne_nil (hkind : tokens.kind ≠ .eof) : tokens.front ≠ [] :=
  fun hnil => hkind (kind_of_front_eq_nil hnil)

theorem current_copy_of_ne_nil (hfront : tokens.front ≠ []) :
    (tokens.copy lines behind).current = tokens.current.down lines := by
  obtain ⟨front, last, hlast⟩ := tokens
  cases front with
  | nil => exact absurd rfl hfront
  | cons t front => rfl

theorem advance_copy (hfront : tokens.front ≠ []) :
    (tokens.copy lines behind).advance = tokens.advance.copy lines behind := by
  obtain ⟨front, last, hlast⟩ := tokens
  cases front with
  | nil => exact absurd rfl hfront
  | cons t front => rfl

/-- The first token of the copy is a copy of the first token, where the copy does not go on behind
the end. -/
theorem Copied.current_eq (h : Copied lines behind tokens)
    (hfront : tokens.front ≠ [] ∨ behind.front = []) :
    (tokens.copy lines behind).current = tokens.current.down lines := by
  by_cases hnil : tokens.front = []
  · have hbehind := hfront.resolve_left (not_not_intro hnil)
    rw [copy_of_nil hnil, current, current, hbehind, hnil]
    exact h.last_eq hbehind
  · exact current_copy_of_ne_nil hnil

end Tokens

namespace Rule

open Tokens

variable {α β : Type} {lines bound : Nat} {behind tokens : Tokens}

/-! ## Outcomes on a copy -/

/-- The second outcome, on a copy, is a copy of the first, or the first has come to the end marker
and the copy goes on there. -/
def AlikeOutcome (lines : Nat) (behind : Tokens) :
    Except Diagnostic α × Tokens → Except Diagnostic α × Tokens → Prop
  | (.ok a, rest), outcome =>
    outcome = (.ok a, rest.copy lines behind) ∨ rest.front = [] ∧ behind.front ≠ []
  | (.error d, rest), outcome =>
    outcome = (.error (d.down lines), rest.copy lines behind) ∨
      d.IsAt rest.last ∧ behind.front ≠ []

def AlikeAt (lines : Nat) (behind : Tokens) (rule rule' : Rule α) (tokens : Tokens) : Prop :=
  AlikeOutcome lines behind (rule.outcome tokens) (rule'.outcome (tokens.copy lines behind))

/-- The first rule on a sequence of at most the given length and the second rule on a copy of it
read alike. -/
structure Alike (lines : Nat) (behind : Tokens) (bound : Nat) (rule rule' : Rule α) : Prop where
  careful : Careful rule
  alikeAt : ∀ tokens, Copied lines behind tokens → tokens.front.length ≤ bound →
    AlikeAt lines behind rule rule' tokens

/-- Nothing is asked of a rule at the end marker if the copy goes on. -/
theorem alikeOutcome_of_end {rule : Rule α} {outcome : Except Diagnostic α × Tokens}
    (hcareful : rule.CarefulAt tokens) (hfront : tokens.front = []) (hbehind : behind.front ≠ []) :
    AlikeOutcome lines behind (rule.outcome tokens) outcome := by
  obtain ⟨ts, htokens, -, herror⟩ := hcareful
  revert htokens herror
  rcases rule.outcome tokens with ⟨d | a, rest⟩
  · intro htokens herror
    obtain ⟨hts, hrest⟩ : ts = [] ∧ rest.front = [] := by
      rw [htokens] at hfront
      exact List.append_eq_nil_iff.mp hfront
    obtain ⟨t, ht, hblames⟩ := herror d rfl
    simp only [hts, current, hrest, List.headD_nil, List.nil_append, List.mem_singleton] at ht
    exact .inr ⟨ht ▸ hblames.isAt, hbehind⟩
  · intro htokens _
    have hrest : rest.front = [] := by
      rw [htokens] at hfront
      exact (List.append_eq_nil_iff.mp hfront).2
    exact .inr ⟨hrest, hbehind⟩

/-- At the end marker a rule is only to be looked at where the copy ends as well. -/
theorem alikeAt_of_end {rule rule' : Rule α} (hcareful : rule.CarefulAt tokens)
    (hlength : tokens.front.length ≤ 0)
    (hclosed : behind.front = [] → AlikeAt lines behind rule rule' tokens) :
    AlikeAt lines behind rule rule' tokens := by
  have hfront := List.eq_nil_of_length_eq_zero (Nat.le_zero.mp hlength)
  by_cases hbehind : behind.front = []
  · exact hclosed hbehind
  · exact alikeOutcome_of_end hcareful hfront hbehind

theorem AlikeAt.bind {rule rule' : Rule α} {next next' : α → Rule β}
    (hrule : AlikeAt lines behind rule rule' tokens) (hcareful : ∀ a, Careful (next a))
    (hnext : ∀ a middle, rule.Reads tokens a middle →
      AlikeAt lines behind (next a) (next' a) middle) :
    AlikeAt lines behind (rule >>= next) (rule' >>= next') tokens := by
  rw [AlikeAt, outcome_bind, outcome_bind]
  rw [AlikeAt] at hrule
  rcases hrun : rule.outcome tokens with ⟨d | a, middle⟩
  · rw [hrun] at hrule
    rcases hrule with hcopy | hend
    · rw [hcopy]
      exact .inl rfl
    · exact .inr hend
  · rw [hrun] at hrule
    rcases hrule with hcopy | ⟨hmiddle, hbehind⟩
    · rw [hcopy]
      exact hnext a middle hrun
    · exact alikeOutcome_of_end (hcareful a middle) hmiddle hbehind

theorem Alike.bind {rule rule' : Rule α} {next next' : α → Rule β}
    (hrule : Alike lines behind bound rule rule')
    (hnext : ∀ a, Alike lines behind bound (next a) (next' a)) :
    Alike lines behind bound (rule >>= next) (rule' >>= next') := by
  refine ⟨hrule.careful.bind fun a => (hnext a).careful, fun tokens hcopied hlength => ?_⟩
  refine (hrule.alikeAt tokens hcopied hlength).bind (fun a => (hnext a).careful) ?_
  intro a middle hreads
  have hsuffix := isSuffix_of_reads hrule.careful hreads
  exact (hnext a).alikeAt middle (hcopied.of_isSuffix hsuffix)
    (Nat.le_trans hsuffix.length_le hlength)

theorem Alike.mono {bound' : Nat} {rule rule' : Rule α}
    (hrule : Alike lines behind bound rule rule') (hle : bound' ≤ bound) :
    Alike lines behind bound' rule rule' :=
  ⟨hrule.careful, fun tokens hcopied hlength =>
    hrule.alikeAt tokens hcopied (Nat.le_trans hlength hle)⟩

/-! ## Single tokens -/

theorem alikeAt_pure (a : α) (tokens : Tokens) : AlikeAt lines behind (pure a) (pure a) tokens :=
  .inl rfl

theorem alikeAt_peek_bind {next next' : Token → Rule β} (hcopied : Copied lines behind tokens)
    (hcareful : (peek >>= next).CarefulAt tokens)
    (hnext : AlikeAt lines behind (next tokens.current) (next' (tokens.current.down lines))
      tokens) :
    AlikeAt lines behind (peek >>= next) (peek >>= next') tokens := by
  by_cases hfront : tokens.front ≠ [] ∨ behind.front = []
  · change AlikeOutcome lines behind ((next tokens.current).outcome tokens)
      ((next' (tokens.copy lines behind).current).outcome _)
    rw [hcopied.current_eq hfront]
    exact hnext
  · obtain ⟨hnil, hbehind⟩ := not_or.mp hfront
    exact alikeOutcome_of_end hcareful (not_not.mp hnil) hbehind

theorem alikeAt_skip_bind {next next' : Unit → Rule β} (hkind : tokens.kind ≠ .eof)
    (hnext : AlikeAt lines behind (next ()) (next' ()) tokens.advance) :
    AlikeAt lines behind (skip >>= next) (skip >>= next') tokens := by
  change AlikeOutcome lines behind ((next ()).outcome tokens.advance)
    ((next' ()).outcome (tokens.copy lines behind).advance)
  rw [advance_copy (front_ne_nil hkind)]
  exact hnext

theorem alikeAt_fail (cause : Diagnostic.Cause) (t : Token) (tokens : Tokens) :
    AlikeAt lines behind (fail cause t : Rule α) (fail cause (t.down lines)) tokens :=
  .inl rfl

namespace Alike

variable {kind : Token.Kind}

theorem pure (a : α) : Alike lines behind bound (Pure.pure a) (Pure.pure a) :=
  ⟨.pure a, fun tokens _ _ => alikeAt_pure a tokens⟩

/-- A rule that first looks at a token. -/
theorem peek_bind {next next' : Token → Rule β} (hcareful : Careful (peek >>= next))
    (hnext : ∀ tokens, Copied lines behind tokens → tokens.front.length ≤ bound →
      AlikeAt lines behind (next tokens.current) (next' (tokens.current.down lines)) tokens) :
    Alike lines behind bound (peek >>= next) (peek >>= next') :=
  ⟨hcareful, fun tokens hcopied hlength =>
    alikeAt_peek_bind hcopied (hcareful tokens) (hnext tokens hcopied hlength)⟩

/-- A rule that first reads a token, at most one token more than the rest of the rule may. -/
theorem skip_bind {next next' : Unit → Rule β}
    (hnext : Alike lines behind bound (next ()) (next' ()))
    (hcopied : Copied lines behind tokens) (hlength : tokens.front.length ≤ bound + 1)
    (hkind : tokens.kind ≠ .eof) :
    AlikeAt lines behind (skip >>= next) (skip >>= next') tokens := by
  refine alikeAt_skip_bind hkind (hnext.alikeAt _ (hcopied.of_isSuffix (isSuffix_advance _)) ?_)
  rw [length_front_advance]
  omega

theorem accept (hkind : kind ≠ .eof) : Alike lines behind bound (accept kind) (accept kind) := by
  refine peek_bind (Careful.accept hkind) fun tokens _ _ => ?_
  rw [Token.kind_down]
  split
  next hfound => exact alikeAt_skip_bind (hfound.trans_ne hkind) (alikeAt_pure _ _)
  next => exact alikeAt_pure _ _

theorem expect_bind {next next' : Token → Rule β} (hkind : kind ∈ Diagnostic.requiredKinds)
    (hnext : ∀ t, Alike lines behind bound (next t) (next' (t.down lines))) :
    Alike lines behind (bound + 1) (expect kind >>= next) (expect kind >>= next') := by
  have hexpect (next : Token → Rule β) : expect kind >>= next = peek >>= fun t =>
      if t.kind = kind then skip >>= fun _ => next t
      else fail (.unexpected kind t.kind) t := by
    rw [expect, bind_assoc]
    congr 1
    funext t
    split
    · simp
    · rfl
  have hcareful := (Careful.expect hkind).bind fun t => (hnext t).careful
  rw [hexpect next] at hcareful
  rw [hexpect next, hexpect next']
  refine peek_bind hcareful fun tokens hcopied hlength => ?_
  rw [Token.kind_down]
  split
  next hfound =>
    have hne := Diagnostic.ne_eof_of_required hkind
    exact (hnext _).skip_bind hcopied hlength (hfound.trans_ne hne)
  next => exact alikeAt_fail _ _ _

theorem name : Alike lines behind bound name name := by
  have hname : Alike lines behind (bound + 1) Rule.name Rule.name :=
    expect_bind (by decide) fun _ => pure _
  exact hname.mono (Nat.le_succ bound)

/-- A token that closes something and is then forgotten. -/
theorem expect_pure (hkind : kind ∈ Diagnostic.requiredKinds) (a : α) :
    Alike lines behind bound (do let _ ← expect kind; Pure.pure a)
      (do let _ ← expect kind; Pure.pure a) :=
  (expect_bind hkind fun _ => pure a).mono (Nat.le_succ bound)

/-! ## Repetition -/

theorem many {step step' : Rule (Option α)} (hstep : Alike lines behind bound step step')
    (hprogress : ∀ tokens a rest, step.Reads tokens (some a) rest →
      rest.front.length < tokens.front.length) {count : Nat} (hcopied : Copied lines behind tokens)
    (hbound : tokens.front.length ≤ bound) (hlength : tokens.front.length ≤ count) :
    AlikeAt lines behind (many step count) (many step' (count + behind.front.length)) tokens := by
  induction count generalizing tokens with
  | zero =>
      refine alikeAt_of_end (Careful.pure _ tokens) hlength fun hbehind => ?_
      rw [hbehind]
      exact alikeAt_pure _ _
  | succ count ih =>
      rw [Nat.add_right_comm]
      refine (hstep.alikeAt tokens hcopied hbound).bind (fun item => ?_)
        fun item middle hreads => ?_
      · cases item with
        | none => exact .pure _
        | some a => exact (hstep.careful.many count).bind fun _ => .pure _
      cases item with
      | none => exact alikeAt_pure _ _
      | some a =>
          have hless := hprogress _ _ _ hreads
          have hsuffix := isSuffix_of_reads hstep.careful hreads
          have hrest := ih (hcopied.of_isSuffix hsuffix) (by omega) (by omega)
          exact hrest.bind (fun _ => .pure _) fun _ _ _ => alikeAt_pure _ _

theorem manyToEnd {step step' : Rule (Option α)} (hstep : Alike lines behind bound step step')
    (hprogress : ∀ tokens a rest, step.Reads tokens (some a) rest →
      rest.front.length < tokens.front.length) :
    Alike lines behind bound (manyToEnd step) (manyToEnd step') := by
  refine ⟨hstep.careful.manyToEnd, fun tokens hcopied hbound => ?_⟩
  change AlikeOutcome lines behind ((Rule.many step tokens.front.length).outcome tokens)
    ((Rule.many step' (tokens.copy lines behind).front.length).outcome _)
  rw [length_front_copy]
  exact hstep.many hprogress hcopied hbound (Nat.le_refl _)

theorem commaList {item item' : Rule α} (hitem : Alike lines behind bound item item')
    (hkind : kind ∈ Diagnostic.requiredKinds) :
    Alike lines behind bound (commaList item kind) (commaList item' kind) := by
  have hfurther : Alike lines behind bound (furtherItem item) (furtherItem item') := by
    refine (accept (by decide)).bind fun found => ?_
    split
    · exact hitem.bind fun _ => pure _
    · exact pure _
  refine (accept (Diagnostic.ne_eof_of_required hkind)).bind fun found => ?_
  split
  · exact pure _
  · refine hitem.bind fun _ => (hfurther.manyToEnd ?_).bind fun _ => expect_pure hkind _
    intro tokens a rest hreads
    rw [reads_furtherItem] at hreads
    split at hreads
    next hcomma =>
      obtain ⟨_, hreads, -⟩ := hreads
      have hshorter := (isSuffix_of_reads hitem.careful hreads).length_le
      have hne := List.length_pos_iff.mpr (front_ne_nil (hcomma.trans_ne (by decide)))
      rw [length_front_advance] at hshorter
      omega
    next => exact absurd hreads.1 nofun

/-! ## Statements and expressions -/

theorem condition {expression expression' : Rule Expr}
    (hexpression : Alike lines behind bound expression expression') :
    Alike lines behind bound (condition expression) (condition expression') := by
  refine (expect_bind (by decide) fun _ => ?_).mono (Nat.le_succ bound)
  exact hexpression.bind fun e => expect_pure (by decide) e

theorem statement {expression expression' : Rule Expr} {block block' : Rule Block}
    (hexpression : Alike lines behind bound expression expression')
    (hblock : Alike lines behind bound block block') :
    Alike lines behind bound (statement expression block) (statement expression' block') := by
  have hend (s : Stmt) : Alike lines behind bound (do let _ ← Rule.accept .semicolon; return s)
      (do let _ ← Rule.accept .semicolon; return s) :=
    (accept (by decide)).bind fun _ => pure _
  refine peek_bind (.statement hexpression.careful hblock.careful) fun tokens hcopied hlength => ?_
  have hlonger := Nat.le_succ_of_le hlength
  rw [Token.kind_down]
  split
  next hkind =>
    refine skip_bind ?_ hcopied hlonger (hkind.trans_ne (by decide))
    refine name.bind fun _ => ?_
    refine (expect_bind (by decide) fun _ => ?_).mono (Nat.le_succ bound)
    exact hexpression.bind fun _ => (pure _).bind hend
  next hkind =>
    refine skip_bind ?_ hcopied hlonger (hkind.trans_ne (by decide))
    exact hexpression.bind fun _ => (pure _).bind hend
  next => exact (hblock.bind fun _ => (pure _).bind hend).alikeAt _ hcopied hlength
  next => exact (hexpression.bind fun _ => (pure _).bind hend).alikeAt _ hcopied hlength

theorem statements {statement statement' : Rule Stmt}
    (hstatement : Alike lines behind bound statement statement')
    (hprogress : ∀ tokens s rest, statement.Reads tokens s rest →
      rest.front.length < tokens.front.length) :
    Alike lines behind bound (statements statement) (statements statement') := by
  have hitem : Alike lines behind bound (blockItem statement) (blockItem statement') := by
    refine peek_bind hstatement.careful.blockItem fun tokens hcopied hlength => ?_
    rw [Token.kind_down]
    split
    next => exact alikeAt_pure _ _
    next => exact alikeAt_pure _ _
    next hkind => exact alikeAt_skip_bind (hkind.trans_ne (by decide)) (alikeAt_pure _ _)
    next => exact (hstatement.bind fun _ => pure _).alikeAt _ hcopied hlength
  refine (hitem.manyToEnd fun tokens item rest hreads => ?_).bind fun _ => pure _
  rw [reads_blockItem] at hreads
  split_ifs at hreads with hend hsemicolon
  · exact absurd hreads.1 nofun
  · obtain ⟨-, rfl⟩ := hreads
    have hne := List.length_pos_iff.mpr (front_ne_nil (hsemicolon.trans_ne (by decide)))
    rw [length_front_advance]
    omega
  · obtain ⟨s, hs, -⟩ := hreads
    exact hprogress _ _ _ hs

section Expressions

variable {expression expression' : Precedence → Rule Expr} {block block' : Rule Block}

theorem operand (hexpression : ∀ min, Alike lines behind bound (expression min) (expression' min))
    (hblock : Alike lines behind bound block block') :
    Alike lines behind (bound + 1) (operand expression block) (operand expression' block') := by
  refine peek_bind (.operand (fun min => (hexpression min).careful) hblock.careful)
    fun tokens hcopied hlength => ?_
  rw [Token.kind_down]
  -- Each case but the last starts with a token of its own kind, which is read first.
  have hskip {kind : Token.Kind} {next next' : Unit → Rule Expr} (hkind : tokens.kind = kind)
      (hne : kind ≠ .eof) (hnext : Alike lines behind bound (next ()) (next' ())) :
      AlikeAt lines behind (skip >>= next) (skip >>= next') tokens :=
    hnext.skip_bind hcopied hlength (hkind.trans_ne hne)
  split
  next hkind => exact hskip hkind (by decide) (pure _)
  next hkind =>
    rw [Token.literal_down]
    split
    next => exact hskip hkind (by decide) (pure _)
    next => exact alikeAt_skip_bind (hkind.trans_ne (by decide)) (alikeAt_fail _ _ _)
  next hkind =>
    rw [Token.literal_down]
    split
    next => exact hskip hkind (by decide) (pure _)
    next => exact alikeAt_skip_bind (hkind.trans_ne (by decide)) (alikeAt_fail _ _ _)
  next hkind => exact hskip hkind (by decide) (pure _)
  next hkind => exact hskip hkind (by decide) (pure _)
  next hkind => exact hskip hkind (by decide) (pure _)
  next hkind => exact hskip hkind (by decide) ((hexpression _).bind fun _ => pure _)
  next hkind => exact hskip hkind (by decide) ((hexpression _).bind fun _ => pure _)
  next hkind =>
    exact hskip hkind (by decide) ((hexpression _).bind fun e => expect_pure (by decide) e)
  next hkind =>
    exact hskip hkind (by decide) (((hexpression _).commaList (by decide)).bind fun _ => pure _)
  next hkind =>
    refine hskip hkind (by decide) ((hexpression _).condition.bind fun _ => hblock.bind fun _ => ?_)
    refine (accept (by decide)).bind fun found => ?_
    split
    · exact hblock.bind fun _ => pure _
    · exact pure _
  next hkind =>
    refine hskip hkind (by decide) ((hexpression _).condition.bind fun _ => ?_)
    exact hblock.bind fun _ => pure _
  next hkind =>
    refine hskip hkind (by decide) ((expect_bind (by decide) fun _ => ?_).mono (Nat.le_succ bound))
    exact (name.commaList (by decide)).bind fun _ => hblock.bind fun _ => pure _
  next => exact alikeAt_fail _ _ _

theorem extend (hexpression : ∀ min, Alike lines behind bound (expression min) (expression' min))
    (left : Expr) (suffix : Suffix) :
    Alike lines behind bound (extend expression left suffix) (extend expression' left suffix) := by
  cases suffix with
  | call => exact ((hexpression _).commaList (by decide)).bind fun _ => pure _
  | index => exact (hexpression _).bind fun _ => expect_pure (by decide) _
  | binary op => exact (hexpression _).bind fun _ => pure _

/-- Every suffix takes a token, so suffixes are never cut short, neither here nor in the copy. -/
theorem suffixes (hexpression : ∀ min, Alike lines behind bound (expression min) (expression' min))
    (min : Precedence) {count : Nat} (left : Expr) (hcopied : Copied lines behind tokens)
    (hbound : tokens.front.length ≤ bound + 1) (hlength : tokens.front.length ≤ count) :
    AlikeAt lines behind (suffixes expression min count left)
      (suffixes expression' min (count + behind.front.length) left) tokens := by
  have hcareful := Careful.suffixes (fun min => (hexpression min).careful) min
  induction count generalizing tokens left with
  | zero =>
      refine alikeAt_of_end (Careful.pure _ tokens) hlength fun hbehind => ?_
      rw [hbehind]
      exact alikeAt_pure _ _
  | succ count ih =>
      rw [Nat.add_right_comm]
      refine alikeAt_peek_bind hcopied (hcareful (count + 1) left tokens) ?_
      rw [Token.kind_down]
      split
      next => exact alikeAt_pure _ _
      next suffix hsuffix =>
        split
        next =>
          have hkind : tokens.kind ≠ .eof := by
            intro heof
            rw [← Tokens.kind, heof] at hsuffix
            cases hsuffix
          have hadvance := hcopied.of_isSuffix (isSuffix_advance tokens)
          have hextend := extend hexpression left suffix
          refine alikeAt_skip_bind hkind ((hextend.alikeAt _ hadvance ?_).bind (hcareful count) ?_)
          · rw [length_front_advance]
            omega
          · intro left' middle hreads
            have hsuffix := isSuffix_of_reads hextend.careful hreads
            have hless := hsuffix.length_le
            rw [length_front_advance] at hless
            exact ih left' (hadvance.of_isSuffix hsuffix) (by omega) (by omega)
        next => exact alikeAt_pure _ _

end Expressions

end Alike

/-- Expressions and blocks are read alike if both rules may go as deep as there are tokens. -/
theorem alike_expression_block (lines : Nat) (behind : Tokens) (depth : Nat) :
    (∀ min, Alike lines behind depth (expression depth min)
      (expression (depth + behind.front.length) min)) ∧
    Alike lines behind depth (block depth) (block (depth + behind.front.length)) := by
  induction depth with
  | zero =>
      have hcareful := careful_expression_block 0
      constructor
      · intro min
        refine ⟨hcareful.1 min, fun tokens hcopied hlength => ?_⟩
        refine alikeAt_of_end (hcareful.1 min tokens) hlength fun hbehind => ?_
        rw [hbehind]
        exact alikeAt_peek_bind hcopied (hcareful.1 min tokens) (alikeAt_fail _ _ _)
      · refine ⟨hcareful.2, fun tokens hcopied hlength => ?_⟩
        refine alikeAt_of_end (hcareful.2 tokens) hlength fun hbehind => ?_
        rw [hbehind]
        exact alikeAt_peek_bind hcopied (hcareful.2 tokens) (alikeAt_fail _ _ _)
  | succ depth ih =>
      obtain ⟨hexpression, hblock⟩ := ih
      have hsound := Grammar.expression_block_sound depth
      rw [Nat.add_right_comm]
      constructor
      · intro min
        have hcareful := (careful_expression_block (depth + 1)).1 min
        refine ⟨hcareful, fun tokens hcopied hlength => ?_⟩
        have hoperand := Alike.operand hexpression hblock
        refine (hoperand.alikeAt tokens hcopied hlength).bind (fun left => ?_) ?_
        · refine Careful.get.bind fun tokens => ?_
          exact .suffixes (fun min => (hexpression min).careful) _ _ _
        · intro left middle hreads
          have hsuffix := isSuffix_of_reads hoperand.careful hreads
          have hless := hsuffix.length_le
          change AlikeOutcome lines behind
            ((suffixes _ min middle.front.length left).outcome middle)
            ((suffixes _ min (middle.copy lines behind).front.length left).outcome _)
          rw [length_front_copy]
          exact Alike.suffixes hexpression min left (hcopied.of_isSuffix hsuffix) (by omega)
            (Nat.le_refl _)
      · refine Alike.expect_bind (by decide) fun _ => ?_
        refine ((Alike.statement (hexpression _) hblock).statements ?_).bind fun _ => ?_
        · intro tokens s rest hreads
          exact Grammar.statement_progress hsound.1 hsound.2 hreads
        · exact Alike.expect_pure (by decide) _

end Rule

end Monkey
