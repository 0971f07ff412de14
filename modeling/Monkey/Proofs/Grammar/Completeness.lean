import Monkey.Proofs.Grammar.Soundness

/-! # Rules read whatever the grammar derives

Tokens that derive a tree are read as that tree, provided that the next token does not extend it.
The induction follows the derivation; at each chain, the loop that extends an operand is resumed
where the left part of the chain ends (`Extends`), so left-leaning chains need no reassociation.
-/

namespace Monkey.Grammar

open Rule

variable {tokens rest : Tokens} {e : Expr} {depth : Nat}

/-! ## Strata and strengths -/

theorem Stops.mono {p q : Precedence} (h : Stops p rest) (hle : p ≤ q) : Stops q rest :=
  fun suffix hsuffix => Nat.le_trans (h suffix hsuffix) hle

theorem Stops.of_kind {min : Precedence} (h : Suffix.ofKind? rest.kind = none) :
    Stops min rest := by
  intro suffix hsuffix
  simp [h] at hsuffix

/-- The next token belongs to no expression of the given strength that ends before it. -/
structure Follows (p : Precedence) (rest : Tokens) : Prop where
  stops : Stops p rest
  kind_ne : rest.kind ≠ .elseWord

theorem Follows.mono {p q : Precedence} (h : Follows p rest) (hle : p ≤ q) : Follows q rest :=
  ⟨h.stops.mono hle, h.kind_ne⟩

theorem Follows.of_kind {p : Precedence} {kind : Token.Kind} (hkind : rest.kind = kind)
    (hsuffix : Suffix.ofKind? kind = none) (hne : kind ≠ .elseWord) : Follows p rest :=
  ⟨.of_kind (hkind ▸ hsuffix), hkind ▸ hne⟩

/-- The loosest stratum at a strength holds the operators of that strength, and the others are those
at the next strength. -/
theorem exists_tighter {p : Precedence} {ops : Stratum} {tight : List Stratum} (hp : p ≠ .lowest)
    (h : ops :: tight = strata.drop (p.level - 1)) :
    ∃ q, p < q ∧ q ≤ .unary ∧ tight = strata.drop (q.level - 1) ∧
      ∀ x ∈ ops, Suffix.ofKind? x.1 = some (.binary x.2) ∧ x.2.precedence = p := by
  cases p with
  | lowest => exact absurd rfl hp
  | logical => cases h; exact ⟨.equality, by decide, by decide, rfl, by decide⟩
  | equality => cases h; exact ⟨.comparison, by decide, by decide, rfl, by decide⟩
  | comparison => cases h; exact ⟨.sum, by decide, by decide, rfl, by decide⟩
  | sum => cases h; exact ⟨.product, by decide, by decide, rfl, by decide⟩
  | product => cases h; exact ⟨.unary, by decide, by decide, rfl, by decide⟩
  | _ => cases h

theorem eq_unary_of_drop_eq_nil {p : Precedence} (h : [] = strata.drop (p.level - 1))
    (hp : p ≤ .unary) : p = .unary := by
  cases p with
  | unary => rfl
  | call => exact absurd hp (by decide)
  | index => exact absurd hp (by decide)
  | _ => cases h

/-! ## Extending an operand -/

section Suffixes

variable {expression : Precedence → Rule Expr} {min : Precedence} {left : Expr}

theorem reads_suffixes_of_stops (h : Stops min tokens) (count : Nat) :
    (suffixes expression min count left).Reads tokens left tokens := by
  cases count with
  | zero => exact reads_pure.mpr ⟨rfl, rfl⟩
  | succ count =>
      rw [suffixes, reads_peek_bind]
      split
      next => exact reads_pure.mpr ⟨rfl, rfl⟩
      next suffix hsuffix =>
        have hnot : ¬ min < suffix.precedence := Nat.not_lt.mpr (h suffix hsuffix)
        rw [if_neg hnot]
        exact reads_pure.mpr ⟨rfl, rfl⟩

/-- The loop takes a suffix that binds tightly enough and goes on behind it. -/
theorem outcome_suffixes_of_lt {suffix : Suffix} {count : Nat}
    (hsuffix : Suffix.ofKind? tokens.kind = some suffix) (hmin : min < suffix.precedence) :
    (suffixes expression min (count + 1) left).outcome tokens =
      (extend expression left suffix >>= suffixes expression min count).outcome tokens.advance := by
  have hpeek : peek.Reads tokens tokens.current tokens := reads_peek.mpr ⟨rfl, rfl⟩
  have hskip : skip.Reads tokens () tokens.advance := reads_skip.mpr rfl
  rw [suffixes, outcome_bind_of_reads hpeek, ← Tokens.kind, hsuffix]
  simp only [hmin, ↓reduceIte]
  exact outcome_bind_of_reads hskip

end Suffixes

/-- The loop that extends an operand ends with `e`, however many more steps it may take. -/
def Extends (depth : Nat) (min : Precedence) (left : Expr) (tokens : Tokens) (e : Expr)
    (rest : Tokens) : Prop :=
  ∀ count, tokens.front.length ≤ count →
    (suffixes (Rule.expression depth) min count left).Reads tokens e rest

theorem Extends.stop {min : Precedence} (h : Stops min rest) : Extends depth min e rest e rest :=
  fun count _ => reads_suffixes_of_stops h count

theorem Extends.step {min : Precedence} (suffix : Suffix) {t : Token} {ts : List Token}
    {left e' : Expr} {middle : Tokens} (hsuffix : Suffix.ofKind? t.kind = some suffix)
    (hmin : min < suffix.precedence)
    (hextend : (extend (Rule.expression depth) left suffix).Reads (middle.prepend ts) e middle)
    (h : Extends depth min e middle e' rest) :
    Extends depth min left (middle.prepend (t :: ts)) e' rest := by
  intro count hcount
  cases count with
  | zero => simp at hcount
  | succ count =>
      have hmore := h count (by simp at hcount; omega)
      have hkind : Suffix.ofKind? (middle.prepend (t :: ts)).kind = some suffix := hsuffix
      rw [Reads, outcome_suffixes_of_lt hkind hmin]
      exact reads_bind.mpr ⟨e, middle, hextend, hmore⟩

theorem reads_expression_succ {min : Precedence} {left : Expr} {middle : Tokens}
    (hleft : (operand (Rule.expression depth) (Rule.block depth)).Reads tokens left middle)
    (h : Extends depth min left middle e rest) :
    (Rule.expression (depth + 1) min).Reads tokens e rest := by
  rw [Rule.expression, reads_bind]
  refine ⟨left, middle, hleft, reads_bind.mpr ⟨middle, middle, ?_, h _ (Nat.le_refl _)⟩⟩
  exact reads_get.mpr ⟨rfl, rfl⟩

/-! ## Lists and blocks -/

theorem reads_commaList_nil {α : Type} {item : Rule α} {close : Token} :
    (commaList item close.kind).Reads (rest.prepend [close]) [] rest := by
  rw [commaList, reads_accept_bind, if_pos Tokens.kind_prepend_cons]
  exact reads_pure.mpr ⟨rfl, rfl⟩

theorem reads_commaList_cons {α : Type} {item : Rule α} {close : Token} {a : α} {as : List α}
    {middle : Tokens} (hkind : tokens.kind ≠ close.kind) (ha : item.Reads tokens a middle)
    (has : Repeats (furtherItem item) middle as (rest.prepend [close])) :
    (commaList item close.kind).Reads tokens (a :: as) rest := by
  rw [commaList, reads_accept_bind, if_neg hkind]
  simp only [Bool.false_eq_true, ↓reduceIte]
  refine reads_bind.mpr ⟨a, middle, ha, reads_bind.mpr ⟨as, _, has.reads, ?_⟩⟩
  rw [reads_expect_bind, reads_pure]
  exact ⟨rfl, rfl, rfl⟩

theorem Names.reads {ts : List Token} {names : List String} {close : Token} (rest : Tokens)
    (h : Names ts names) (hclose : close.kind = .rparen) :
    ∃ name more middle, names = name :: more ∧
      Rule.name.Reads ((rest.prepend [close]).prepend ts) name middle ∧
      Repeats (furtherItem Rule.name) middle more (rest.prepend [close]) := by
  induction h with
  | last hkind =>
      refine ⟨_, [], rest.prepend [close], rfl, ?_, ?_⟩
      · exact reads_name.mpr ⟨hkind, rfl, rfl⟩
      · refine .nil (reads_furtherItem.mpr ?_)
        simp [hclose]
  | @cons t comma us names hkind hcomma _ ih =>
      obtain ⟨name, more, middle, rfl, hname, hmore⟩ := ih
      refine ⟨_, name :: more, ((rest.prepend [close]).prepend us).prepend [comma], rfl, ?_, ?_⟩
      · exact reads_name.mpr ⟨hkind, rfl, by simp⟩
      · refine .cons (reads_furtherItem.mpr ?_) ?_ hmore
        · simpa [hcomma] using hname
        · obtain ⟨-, -, rfl⟩ := reads_name.mp hname
          simp only [Tokens.length_front_advance, Tokens.front_prepend, List.length_append,
            List.length_cons, List.length_nil]
          omega

theorem Params.reads {ts : List Token} {params : List String} {close : Token} (rest : Tokens)
    (h : Params ts params) (hclose : close.kind = .rparen) :
    (commaList Rule.name .rparen).Reads (rest.prepend (ts ++ [close])) params rest := by
  rw [← hclose]
  cases h with
  | nil => exact reads_commaList_nil
  | names h =>
      have hkind : (rest.prepend (ts ++ [close])).kind ≠ close.kind := by
        rw [hclose]
        cases h with
        | last h | cons h => simp [h]
      obtain ⟨name, more, middle, rfl, hname, hmore⟩ := h.reads rest hclose
      rw [Tokens.prepend_prepend] at hname
      exact reads_commaList_cons hkind hname hmore

/-! ## Derivations -/

/-- The tokens are read as an operand of strength `p`, and reading goes on with what follows. -/
def ReadsAt (p : Precedence) (ts : List Token) (e : Expr) : Prop :=
  ∀ depth min rest e' rest', min ≤ .unary → (min < p ∨ p = .unary) → ts.length ≤ depth + 1 →
    Follows p rest → Extends depth min e rest e' rest' →
      (Rule.expression (depth + 1) min).Reads (rest.prepend ts) e' rest'

theorem exists_succ_of_starts {ts : List Token} (hstarts : Starts ts)
    (hlength : ts.length ≤ depth) : ∃ d, depth = d + 1 := by
  obtain ⟨t, us, rfl, -⟩ := hstarts
  exact Nat.exists_eq_succ_of_ne_zero (by simp at hlength; omega)

/-- An expression that ends before the next token is read whole. -/
theorem ReadsAt.expression {ts : List Token} (h : ReadsAt .logical ts e) (hstarts : Starts ts)
    (hlength : ts.length ≤ depth) (hfollows : Follows .lowest rest) :
    (Rule.expression depth .lowest).Reads (rest.prepend ts) e rest := by
  obtain ⟨d, rfl⟩ := exists_succ_of_starts hstarts hlength
  exact h _ _ _ _ _ (by decide) (.inl (by decide)) hlength (hfollows.mono (by decide))
    (.stop hfollows.stops)

/-- An expression up to a closing token is read together with it. -/
theorem ReadsAt.closed {ts : List Token} {closing : Token} {kind : Token.Kind}
    (h : ReadsAt .logical ts e) (hstarts : Starts ts) (hclose : closing.kind = kind)
    (hsuffix : Suffix.ofKind? kind = none) (hne : kind ≠ .elseWord) (hlength : ts.length ≤ depth)
    (f : Expr → Expr) :
    (Rule.expression depth .lowest >>= fun e => expect kind >>= fun _ => pure (f e)).Reads
      (rest.prepend (ts ++ [closing])) (f e) rest := by
  have hinner : (Rule.expression depth .lowest).Reads ((rest.prepend [closing]).prepend ts) e
      (rest.prepend [closing]) :=
    h.expression hstarts hlength (.of_kind hclose hsuffix hne)
  rw [Tokens.prepend_append]
  refine reads_bind.mpr ⟨e, _, hinner, ?_⟩
  rw [reads_expect_bind, reads_pure]
  exact ⟨hclose, rfl, rfl⟩

/-- The right operand of an operator is read up to what does not bind more tightly. -/
theorem ReadsAt.right {p q : Precedence} {ts : List Token} (h : ReadsAt q ts e)
    (hstarts : Starts ts) (hp : p < q) (hq : q ≤ .unary) (hlength : ts.length ≤ depth)
    (hfollows : Follows p rest) : (Rule.expression depth p).Reads (rest.prepend ts) e rest := by
  obtain ⟨d, rfl⟩ := exists_succ_of_starts hstarts hlength
  have hle : p ≤ q := Nat.le_of_lt hp
  exact h _ _ _ _ _ (Nat.le_trans hle hq) (.inl hp) hlength (hfollows.mono hle)
    (.stop hfollows.stops)

theorem reads_operand_unary {op : UnaryOp} {t : Token} {ts : List Token}
    (ht : (t.kind, op) ∈ signs)
    (h : (Rule.expression depth .unary).Reads (rest.prepend ts) e rest) :
    (operand (Rule.expression depth) (Rule.block depth)).Reads (rest.prepend (t :: ts))
      (.unary op e) rest := by
  rw [operand, reads_peek_bind, Tokens.current_prepend_cons]
  simp only [signs, List.mem_cons, Prod.mk.injEq, List.not_mem_nil, or_false] at ht
  rcases ht with ⟨hkind, rfl⟩ | ⟨hkind, rfl⟩
  · simp only [hkind]
    rw [reads_skip_bind, Tokens.advance_prepend_cons, reads_bind]
    exact ⟨e, rest, h, reads_pure.mpr ⟨rfl, rfl⟩⟩
  · simp only [hkind]
    rw [reads_skip_bind, Tokens.advance_prepend_cons, reads_bind]
    exact ⟨e, rest, h, reads_pure.mpr ⟨rfl, rfl⟩⟩

/-- A chain is read as its left part, then an operator, then its right part. -/
theorem ReadsAt.binary {p q : Precedence} {ls rs : List Token} {t : Token} {op : BinaryOp}
    {l r : Expr} (hl : ReadsAt p ls l) (hr : ReadsAt q rs r) (hls : Starts ls) (hrs : Starts rs)
    (hsuffix : Suffix.ofKind? t.kind = some (.binary op)) (hop : op.precedence = p)
    (hpq : p < q) (hq : q ≤ .unary) : ReadsAt p (ls ++ t :: rs) (.binary op l r) := by
  intro depth min rest e' rest' hmin hlt hlength hfollows hextends
  subst hop
  have hne : op.precedence ≠ .unary := by cases op <;> decide
  have hlt := hlt.resolve_right hne
  have hlengths : ls.length + (rs.length + 1) ≤ depth + 1 := by simpa using hlength
  obtain ⟨u, us, hu, -⟩ := hls
  have hright : (Rule.expression depth op.precedence).Reads (rest.prepend rs) r rest :=
    hr.right hrs hpq hq (by simp [hu] at hlengths; omega) hfollows
  -- The left part is read first, and goes on with this operator as its next suffix.
  rw [Tokens.prepend_append]
  refine hl _ _ _ _ _ hmin (.inl hlt) (by omega) ⟨?_, ?_⟩ (.step _ hsuffix hlt ?_ hextends)
  · intro suffix hsuffix'
    rw [Tokens.kind_prepend_cons, hsuffix, Option.some.injEq] at hsuffix'
    exact hsuffix' ▸ Nat.le_refl _
  · rw [Tokens.kind_prepend_cons]
    intro helse
    simp [helse, Suffix.ofKind?] at hsuffix
  · exact reads_bind.mpr ⟨r, rest, hright, reads_pure.mpr ⟨rfl, rfl⟩⟩

theorem ReadsAt.loosen {p q : Precedence} {ts : List Token} (h : ReadsAt q ts e) (hpq : p < q)
    (hq : q ≤ .unary) : ReadsAt p ts e := by
  intro depth min rest e' rest' hmin hlt hlength hfollows hextends
  have hne : p ≠ .unary := by
    rintro rfl
    exact absurd (Nat.lt_of_lt_of_le hpq hq) (Nat.lt_irrefl _)
  have hlt : min < q := Nat.lt_trans (hlt.resolve_right hne) hpq
  exact h _ _ _ _ _ hmin (.inl hlt) hlength (hfollows.mono (Nat.le_of_lt hpq)) hextends

theorem ReadsAt.sign {op : UnaryOp} {t : Token} {ts : List Token} (ht : (t.kind, op) ∈ signs)
    (h : ReadsAt .unary ts e) (hts : Starts ts) : ReadsAt .unary (t :: ts) (.unary op e) := by
  intro depth min rest e' rest' _ _ hlength hfollows hextends
  have hlength : ts.length ≤ depth := Nat.le_of_succ_le_succ hlength
  obtain ⟨d, rfl⟩ := exists_succ_of_starts hts hlength
  refine reads_expression_succ (reads_operand_unary ht ?_) hextends
  exact h _ _ _ _ _ (by decide) (.inr rfl) hlength hfollows (.stop hfollows.stops)

/-- The tokens are read as an operand that takes suffixes of every strength. -/
def ReadsSuffixed (ts : List Token) (e : Expr) : Prop :=
  ∀ depth min rest e' rest', min ≤ .unary → ts.length ≤ depth + 1 → rest.kind ≠ .elseWord →
    Extends depth min e rest e' rest' →
      (Rule.expression (depth + 1) min).Reads (rest.prepend ts) e' rest'

/-- The tokens are read as an operand without suffixes. -/
def ReadsOperand (ts : List Token) (e : Expr) : Prop :=
  ∀ depth rest, ts.length ≤ depth + 1 → rest.kind ≠ .elseWord →
    (operand (Rule.expression depth) (Rule.block depth)).Reads (rest.prepend ts) e rest

/-- The tokens between an opening and a closing token are read as a list. -/
def ReadsList (ts : List Token) (es : List Expr) : Prop :=
  ∀ depth rest (close : Token), ts.length ≤ depth → close.kind = .rparen ∨ close.kind = .rbracket →
    (commaList (Rule.expression depth .lowest) close.kind).Reads (rest.prepend (ts ++ [close])) es
      rest

def ReadsBlock (ts : List Token) (body : List Stmt) : Prop :=
  ∀ depth rest, ts.length ≤ depth → (Rule.block depth).Reads (rest.prepend ts) body rest

theorem ReadsOperand.suffixed {ts : List Token} (h : ReadsOperand ts e) : ReadsSuffixed ts e := by
  intro depth min rest e' rest' _ hlength hkind hextends
  exact reads_expression_succ (h depth rest hlength hkind) hextends

theorem ReadsSuffixed.readsAt {ts : List Token} (h : ReadsSuffixed ts e) : ReadsAt .unary ts e := by
  intro depth min rest e' rest' hmin _ hlength hfollows hextends
  exact h _ _ _ _ _ hmin hlength hfollows.kind_ne hextends

theorem ReadsSuffixed.call {ts us : List Token} {opening closing : Token} {args : List Expr}
    (h : ReadsSuffixed ts e) (hts : Starts ts) (hopen : opening.kind = .lparen)
    (hargs : ReadsList us args) (hclose : closing.kind = .rparen) :
    ReadsSuffixed (ts ++ opening :: (us ++ [closing])) (.call e args) := by
  intro depth min rest e' rest' hmin hlength _ hextends
  obtain ⟨t, vs, rfl, -⟩ := hts
  simp only [List.length_append, List.length_cons, List.length_nil] at hlength
  have hlist := hargs depth rest closing (by omega) (.inl hclose)
  rw [hclose] at hlist
  rw [Tokens.prepend_append]
  refine h _ _ _ _ _ hmin (by simp; omega) (by simp [hopen]) ?_
  refine .step .call (by simp [hopen, Suffix.ofKind?]) ?_ ?_ hextends
  · exact Nat.lt_of_le_of_lt hmin (by decide)
  · exact reads_bind.mpr ⟨args, rest, hlist, reads_pure.mpr ⟨rfl, rfl⟩⟩

theorem ReadsSuffixed.index {ts us : List Token} {opening closing : Token} {i : Expr}
    (h : ReadsSuffixed ts e) (hts : Starts ts) (hopen : opening.kind = .lbracket)
    (hi : ReadsAt .logical us i) (hus : Starts us) (hclose : closing.kind = .rbracket) :
    ReadsSuffixed (ts ++ opening :: (us ++ [closing])) (.index e i) := by
  intro depth min rest e' rest' hmin hlength _ hextends
  obtain ⟨t, vs, rfl, -⟩ := hts
  simp only [List.length_append, List.length_cons, List.length_nil] at hlength
  rw [Tokens.prepend_append]
  refine h _ _ _ _ _ hmin (by simp; omega) (by simp [hopen]) ?_
  refine .step .index (by simp [hopen, Suffix.ofKind?]) ?_ ?_ hextends
  · exact Nat.lt_of_le_of_lt hmin (by decide)
  · exact hi.closed hus hclose rfl (by decide) (by omega) (.index e)

/-- The tokens of a condition, which stand in parentheses. -/
def ReadsCondition (ts : List Token) (e : Expr) : Prop :=
  ∀ depth rest, ts.length ≤ depth →
    (condition (Rule.expression depth .lowest)).Reads (rest.prepend ts) e rest

theorem ReadsCondition.mk {ts : List Token} {opening closing : Token}
    (hopen : opening.kind = .lparen) (h : ReadsAt .logical ts e) (hts : Starts ts)
    (hclose : closing.kind = .rparen) : ReadsCondition (opening :: (ts ++ [closing])) e := by
  intro depth rest hlength
  rw [condition, reads_expect_bind, Tokens.advance_prepend_cons]
  exact ⟨hopen, h.closed hts hclose rfl (by decide) (by simp at hlength; omega) id⟩

/-- A condition and a block are read one after the other. -/
theorem ReadsCondition.guarded {cs bs : List Token} {c result : Expr} {body : List Stmt}
    {rest' : Tokens} {next : Expr → List Stmt → Rule Expr} (hc : ReadsCondition cs c)
    (hbody : ReadsBlock bs body) (hlength : cs.length + bs.length ≤ depth)
    (hnext : (next c body).Reads rest result rest') :
    (condition (Rule.expression depth .lowest) >>= fun c => Rule.block depth >>= next c).Reads
      (rest.prepend (cs ++ bs)) result rest' := by
  rw [Tokens.prepend_append]
  refine reads_bind.mpr ⟨c, _, hc depth _ (by omega), ?_⟩
  exact reads_bind.mpr ⟨body, rest, hbody depth _ (by omega), hnext⟩

theorem ReadsOperand.leaf {t : Token} (h : Leaf t e) : ReadsOperand [t] e := by
  intro depth rest _ _
  rw [operand, reads_peek_bind, Tokens.current_prepend_cons]
  cases h with
  | ident h | string h | trueWord h | falseWord h =>
      simp only [h]
      rw [reads_skip_bind]
      exact reads_pure.mpr ⟨rfl, rfl⟩
  | int h hn =>
      simp only [h]
      rw [reads_skip_bind, hn]
      exact reads_pure.mpr ⟨rfl, rfl⟩
  | float h hx hfinite =>
      simp only [h]
      rw [reads_skip_bind, hx, Option.filter_some, if_pos hfinite]
      exact reads_pure.mpr ⟨rfl, rfl⟩

theorem ReadsOperand.group {ts : List Token} {opening closing : Token}
    (hopen : opening.kind = .lparen) (h : ReadsAt .logical ts e) (hts : Starts ts)
    (hclose : closing.kind = .rparen) : ReadsOperand (opening :: (ts ++ [closing])) e := by
  intro depth rest hlength _
  rw [operand, reads_peek_bind, Tokens.current_prepend_cons]
  simp only [hopen]
  rw [reads_skip_bind, Tokens.advance_prepend_cons]
  exact h.closed hts hclose rfl (by decide) (by simp at hlength; omega) id

theorem ReadsOperand.array {ts : List Token} {opening closing : Token} {es : List Expr}
    (hopen : opening.kind = .lbracket) (h : ReadsList ts es) (hclose : closing.kind = .rbracket) :
    ReadsOperand (opening :: (ts ++ [closing])) (.array es) := by
  intro depth rest hlength _
  have hlist := h depth rest closing (by simp at hlength; omega) (.inr hclose)
  rw [hclose] at hlist
  rw [operand, reads_peek_bind, Tokens.current_prepend_cons]
  simp only [hopen]
  rw [reads_skip_bind, Tokens.advance_prepend_cons]
  exact reads_bind.mpr ⟨es, rest, hlist, reads_pure.mpr ⟨rfl, rfl⟩⟩

theorem ReadsOperand.conditional {word : Token} {cs bs : List Token} {c : Expr} {body : List Stmt}
    (hword : word.kind = .ifWord) (hc : ReadsCondition cs c) (hbody : ReadsBlock bs body) :
    ReadsOperand (word :: (cs ++ bs)) (.conditional c body none) := by
  intro depth rest hlength helse
  simp only [List.length_cons, List.length_append] at hlength
  rw [operand, reads_peek_bind, Tokens.current_prepend_cons]
  simp only [hword]
  rw [reads_skip_bind, Tokens.advance_prepend_cons]
  refine hc.guarded hbody (by omega) ?_
  rw [reads_accept_bind, if_neg helse]
  exact reads_pure.mpr ⟨rfl, rfl⟩

theorem ReadsOperand.alternative {word elseWord : Token} {cs bs as : List Token} {c : Expr}
    {body alternative : List Stmt} (hword : word.kind = .ifWord) (hc : ReadsCondition cs c)
    (hbody : ReadsBlock bs body) (helse : elseWord.kind = .elseWord)
    (halternative : ReadsBlock as alternative) :
    ReadsOperand (word :: (cs ++ (bs ++ elseWord :: as)))
      (.conditional c body (some alternative)) := by
  intro depth rest hlength _
  simp only [List.length_cons, List.length_append] at hlength
  rw [operand, reads_peek_bind, Tokens.current_prepend_cons]
  simp only [hword]
  rw [reads_skip_bind, Tokens.advance_prepend_cons, ← List.append_assoc, Tokens.prepend_append]
  refine hc.guarded hbody (by omega) ?_
  rw [reads_accept_bind, if_pos (by simpa using helse), Tokens.advance_prepend_cons]
  exact reads_bind.mpr
    ⟨alternative, rest, halternative depth _ (by omega), reads_pure.mpr ⟨rfl, rfl⟩⟩

theorem ReadsOperand.loop {word : Token} {cs bs : List Token} {c : Expr} {body : List Stmt}
    (hword : word.kind = .whileWord) (hc : ReadsCondition cs c) (hbody : ReadsBlock bs body) :
    ReadsOperand (word :: (cs ++ bs)) (.loop c body) := by
  intro depth rest hlength _
  simp only [List.length_cons, List.length_append] at hlength
  rw [operand, reads_peek_bind, Tokens.current_prepend_cons]
  simp only [hword]
  rw [reads_skip_bind, Tokens.advance_prepend_cons]
  exact hc.guarded hbody (by omega) (reads_pure.mpr ⟨rfl, rfl⟩)

theorem ReadsOperand.function {word opening closing : Token} {ps bs : List Token}
    {params : List String} {body : List Stmt} (hword : word.kind = .fnWord)
    (hopen : opening.kind = .lparen) (hparams : Params ps params) (hclose : closing.kind = .rparen)
    (hbody : ReadsBlock bs body) :
    ReadsOperand (word :: opening :: (ps ++ closing :: bs)) (.function params body) := by
  intro depth rest hlength _
  simp only [List.length_cons, List.length_append] at hlength
  have hreads := hparams.reads (rest.prepend bs) hclose
  rw [Tokens.prepend_prepend, List.append_assoc, List.singleton_append] at hreads
  rw [operand, reads_peek_bind, Tokens.current_prepend_cons]
  simp only [hword]
  rw [reads_skip_bind, Tokens.advance_prepend_cons, reads_expect_bind, Tokens.advance_prepend_cons]
  refine ⟨hopen, reads_bind.mpr ⟨params, _, hreads, ?_⟩⟩
  exact reads_bind.mpr ⟨body, rest, hbody depth _ (by omega), reads_pure.mpr ⟨rfl, rfl⟩⟩

/-- The tokens of a list that is not empty are read as a first item and further ones. -/
def ReadsItems (ts : List Token) (es : List Expr) : Prop :=
  ∀ depth (rest : Tokens) (close : Token), ts.length ≤ depth →
    close.kind = .rparen ∨ close.kind = .rbracket →
    ∃ e more middle, es = e :: more ∧
      (Rule.expression depth .lowest).Reads (rest.prepend (ts ++ [close])) e middle ∧
      Repeats (furtherItem (Rule.expression depth .lowest)) middle more (rest.prepend [close])

theorem ReadsItems.last {ts : List Token} (h : ReadsAt .logical ts e) (hts : Starts ts) :
    ReadsItems ts [e] := by
  intro depth rest close hlength hclose
  have hfollows : Follows .lowest (rest.prepend [close]) := by
    rcases hclose with hkind | hkind
    · exact .of_kind hkind rfl (by decide)
    · exact .of_kind hkind rfl (by decide)
  refine ⟨e, [], rest.prepend [close], rfl, ?_, .nil (reads_furtherItem.mpr ?_)⟩
  · rw [Tokens.prepend_append]
    exact h.expression hts hlength hfollows
  · rcases hclose with hkind | hkind <;> simp [hkind]

theorem ReadsItems.cons {ts us : List Token} {comma : Token} {es : List Expr}
    (h : ReadsAt .logical ts e) (hts : Starts ts) (hcomma : comma.kind = .comma)
    (hes : ReadsItems us es) : ReadsItems (ts ++ comma :: us) (e :: es) := by
  intro depth rest close hlength hclose
  simp only [List.length_append, List.length_cons] at hlength
  obtain ⟨e', more, middle, rfl, he', hmore⟩ := hes depth rest close (by omega) hclose
  have hshorter : middle.front.length ≤ (rest.prepend (us ++ [close])).front.length := by
    obtain ⟨vs, heq, -⟩ := (expression_block_sound depth).1 _ _ _ _ (by decide) he'
    rw [heq]
    simp
  refine ⟨e, e' :: more, rest.prepend (comma :: (us ++ [close])), rfl, ?_, ?_⟩
  · have hfollows : Follows .lowest (rest.prepend (comma :: (us ++ [close]))) :=
      .of_kind hcomma rfl (by decide)
    rw [List.append_assoc, List.cons_append, Tokens.prepend_append]
    exact h.expression hts (by omega) hfollows
  · refine .cons (reads_furtherItem.mpr ?_) ?_ hmore
    · rw [Tokens.kind_prepend_cons, if_pos hcomma]
      exact ⟨e', he', rfl⟩
    · simp only [Tokens.front_prepend, List.length_append, List.length_cons] at hshorter ⊢
      omega

theorem ReadsList.nil : ReadsList [] [] :=
  fun _ _ _ _ _ => reads_commaList_nil

theorem ReadsItems.list {ts : List Token} {es : List Expr} (h : ReadsItems ts es)
    (hts : Starts ts) : ReadsList ts es := by
  intro depth rest close hlength hclose
  have hkind : (rest.prepend (ts ++ [close])).kind ≠ close.kind := by
    obtain ⟨t, us, rfl, ht⟩ := hts
    intro heq
    rw [List.cons_append, Tokens.kind_prepend_cons] at heq
    rcases hclose with hkind | hkind
    · exact absurd (hkind ▸ heq ▸ ht) (by decide)
    · exact absurd (hkind ▸ heq ▸ ht) (by decide)
  obtain ⟨e, more, middle, rfl, he, hmore⟩ := h depth rest close hlength hclose
  exact reads_commaList_cons hkind he hmore

/-- What a statement leaves: a semicolon after it is taken, anything else is left alone. -/
def afterSemicolon (tokens : Tokens) : Tokens :=
  if tokens.kind = .semicolon then tokens.advance else tokens

/-- The tokens are read as a statement, together with a semicolon that follows. -/
def ReadsStatement (ts : List Token) (s : Stmt) : Prop :=
  ∀ depth middle, ts.length ≤ depth → ((∀ body, s ≠ .block body) → Follows .lowest middle) →
    (statement (Rule.expression depth .lowest) (Rule.block depth)).Reads (middle.prepend ts) s
      (afterSemicolon middle)

theorem reads_accept_semicolon {s : Stmt} {middle : Tokens} :
    Reads (do let _ ← accept .semicolon; return s) middle s (afterSemicolon middle) := by
  rw [reads_accept_bind, afterSemicolon]
  split
  · exact reads_pure.mpr ⟨rfl, rfl⟩
  · exact reads_pure.mpr ⟨rfl, rfl⟩

theorem ReadsStatement.bind {word name assign : Token} {ts : List Token}
    (hword : word.kind = .letWord) (hname : name.kind = .ident) (hassign : assign.kind = .assign)
    (h : ReadsAt .logical ts e) (hts : Starts ts) :
    ReadsStatement (word :: name :: assign :: ts) (.bind name.literal e) := by
  intro depth middle hlength hfollows
  have he : (Rule.expression depth .lowest).Reads (middle.prepend ts) e middle :=
    h.expression hts (by simp at hlength; omega) (hfollows (by simp))
  rw [statement, reads_peek_bind, Tokens.current_prepend_cons]
  simp only [hword]
  rw [reads_skip_bind, Tokens.advance_prepend_cons]
  refine reads_bind.mpr ⟨name.literal, _, reads_name.mpr ⟨hname, rfl, rfl⟩, ?_⟩
  rw [Tokens.advance_prepend_cons, reads_expect_bind, Tokens.advance_prepend_cons]
  refine ⟨hassign, reads_bind.mpr ⟨e, middle, he, ?_⟩⟩
  rw [pure_bind]
  exact reads_accept_semicolon

theorem ReadsStatement.ret {word : Token} {ts : List Token} (hword : word.kind = .returnWord)
    (h : ReadsAt .logical ts e) (hts : Starts ts) : ReadsStatement (word :: ts) (.ret e) := by
  intro depth middle hlength hfollows
  have he : (Rule.expression depth .lowest).Reads (middle.prepend ts) e middle :=
    h.expression hts (by simp at hlength; omega) (hfollows (by simp))
  rw [statement, reads_peek_bind, Tokens.current_prepend_cons]
  simp only [hword]
  rw [reads_skip_bind, Tokens.advance_prepend_cons]
  refine reads_bind.mpr ⟨e, middle, he, ?_⟩
  rw [pure_bind]
  exact reads_accept_semicolon

theorem ReadsStatement.expr {ts : List Token} (h : ReadsAt .logical ts e) (hts : Starts ts) :
    ReadsStatement ts (.expr e) := by
  intro depth middle hlength hfollows
  have he : (Rule.expression depth .lowest).Reads (middle.prepend ts) e middle :=
    h.expression hts hlength (hfollows (by simp))
  obtain ⟨t, us, rfl, ht⟩ := hts
  have hlet : t.kind ≠ .letWord := fun heq => absurd (heq ▸ ht) (by decide)
  have hreturn : t.kind ≠ .returnWord := fun heq => absurd (heq ▸ ht) (by decide)
  have hbrace : t.kind ≠ .lbrace := fun heq => absurd (heq ▸ ht) (by decide)
  rw [statement, reads_peek_bind, Tokens.current_prepend_cons]
  dsimp only
  split
  · contradiction
  · contradiction
  · contradiction
  · refine reads_bind.mpr ⟨e, middle, he, ?_⟩
    rw [pure_bind]
    exact reads_accept_semicolon

theorem ReadsStatement.block {ts : List Token} {opening : Token} {body : List Stmt}
    (hopen : opening.kind = .lbrace) (h : ReadsBlock (opening :: ts) body) :
    ReadsStatement (opening :: ts) (.block body) := by
  intro depth middle hlength _
  rw [statement, reads_peek_bind, Tokens.current_prepend_cons]
  simp only [hopen]
  refine reads_bind.mpr ⟨body, middle, h depth middle hlength, ?_⟩
  rw [pure_bind]
  exact reads_accept_semicolon

/-- Before statements or the end of a block or program, an expression that is delimited ends. -/
theorem Delimited.follows {s : Stmt} {us : List Token} {body : List Stmt} (h : Delimited s us)
    (hs : ∀ body, s ≠ .block body) (hbody : Statements us body)
    (hrest : rest.kind = .rbrace ∨ rest.kind = .eof) : Follows .lowest (rest.prepend us) := by
  rcases hbody.starts with rfl | ⟨t, vs, rfl, ht⟩
  · rcases hrest with hkind | hkind
    · exact .of_kind hkind rfl (by decide)
    · exact .of_kind hkind rfl (by decide)
  · have hnext : t.kind ∉ extending := by
      cases s with
      | block body => exact absurd rfl (hs body)
      | _ => exact h t rfl
    refine .of_kind Tokens.kind_prepend_cons ?_ (fun heq => absurd (heq ▸ ht) (by decide))
    rw [mem_extending_iff, Bool.not_eq_true, Option.isSome_eq_false_iff, Option.isNone_iff_eq_none]
      at hnext
    exact hnext

/-- The tokens are read as the statements of a block or program. -/
def ReadsStatements (ts : List Token) (body : List Stmt) : Prop :=
  ∀ depth (rest : Tokens), ts.length ≤ depth → rest.kind = .rbrace ∨ rest.kind = .eof →
    ∃ items, items.flatten = body ∧
      Repeats (blockItem (statement (Rule.expression depth .lowest) (Rule.block depth)))
        (rest.prepend ts) items rest

theorem ReadsStatements.nil : ReadsStatements [] [] := by
  intro depth rest _ hrest
  exact ⟨[], rfl, .nil (reads_blockItem.mpr (by simp [hrest]))⟩

theorem ReadsStatements.separator {t : Token} {ts : List Token} {body : List Stmt}
    (ht : t.kind = .semicolon) (h : ReadsStatements ts body) : ReadsStatements (t :: ts) body := by
  intro depth rest hlength hrest
  obtain ⟨items, rfl, hitems⟩ := h depth rest (Nat.le_of_succ_le hlength) hrest
  refine ⟨[] :: items, rfl, .cons (reads_blockItem.mpr ?_) ?_ hitems⟩
  · simp [ht]
  · simp

theorem reads_blockItem_statement {statement : Rule Stmt} {ts : List Token} {s : Stmt}
    (hs : Statement ts s) (h : statement.Reads (tokens.prepend ts) s rest) :
    (blockItem statement).Reads (tokens.prepend ts) (some [s]) rest := by
  obtain ⟨t, us, rfl, ht⟩ := hs.starts
  have hrbrace : t.kind ≠ .rbrace := fun heq => absurd (heq ▸ ht) (by decide)
  have heof : t.kind ≠ .eof := fun heq => absurd (heq ▸ ht) (by decide)
  have hsemicolon : t.kind ≠ .semicolon := fun heq => absurd (heq ▸ ht) (by decide)
  refine reads_blockItem.mpr ?_
  rw [Tokens.kind_prepend_cons, if_neg (not_or.mpr ⟨hrbrace, heof⟩), if_neg hsemicolon]
  exact ⟨s, h, rfl⟩

theorem ReadsStatements.closed {ts us : List Token} {t : Token} {s : Stmt} {body : List Stmt}
    (hs : Statement ts s) (hreads : ReadsStatement ts s) (ht : t.kind = .semicolon)
    (h : ReadsStatements us body) : ReadsStatements (ts ++ t :: us) (s :: body) := by
  intro depth rest hlength hrest
  simp only [List.length_append, List.length_cons] at hlength
  obtain ⟨items, rfl, hitems⟩ := h depth rest (by omega) hrest
  have hstatement := hreads depth (rest.prepend (t :: us)) (by omega)
    (fun _ => .of_kind ht rfl (by decide))
  rw [afterSemicolon, if_pos (by simpa using ht), Tokens.advance_prepend_cons] at hstatement
  rw [Tokens.prepend_append]
  refine ⟨[s] :: items, rfl, .cons (reads_blockItem_statement hs hstatement) ?_ hitems⟩
  simp only [Tokens.front_prepend, List.length_append, List.length_cons]
  omega

/-- Statements that start with a semicolon are read from behind it as well. -/
theorem repeats_of_semicolon {statement : Rule Stmt} {items : List (List Stmt)}
    (hkind : tokens.kind = .semicolon) (h : Repeats (blockItem statement) tokens items rest) :
    ∃ more, items = [] :: more ∧ Repeats (blockItem statement) tokens.advance more rest := by
  have hstep : ∀ count, tokens.advance.front.length ≤ count → ∃ more, items = [] :: more ∧
      (many (blockItem statement) count).Reads tokens.advance more rest := by
    intro count hcount
    have hlength : tokens.front.length ≤ count + 1 := by
      simp only [Tokens.length_front_advance] at hcount
      omega
    rcases reads_many_succ.mp (h _ hlength) with ⟨hnone, -⟩ | ⟨a, more, middle, ha, hmore, rfl⟩
    · simp [reads_blockItem, hkind] at hnone
    · simp only [reads_blockItem, hkind, reduceCtorEq, or_self, ↓reduceIte, Option.some.injEq] at ha
      obtain ⟨rfl, rfl⟩ := ha
      exact ⟨more, rfl, hmore⟩
  -- The items are the same for every count, so one count tells which they are.
  obtain ⟨more, rfl, -⟩ := hstep _ (Nat.le_refl _)
  refine ⟨more, rfl, ?_⟩
  intro count hcount
  obtain ⟨_, heq, hmore⟩ := hstep count hcount
  cases heq
  exact hmore

/-- A statement without a semicolon of its own takes the separator that follows, if one does. -/
theorem ReadsStatements.bare {ts us : List Token} {s : Stmt} {body : List Stmt}
    (hs : Statement ts s) (hreads : ReadsStatement ts s) (hdelimited : Delimited s us)
    (hbody : Statements us body) (h : ReadsStatements us body) :
    ReadsStatements (ts ++ us) (s :: body) := by
  intro depth rest hlength hrest
  have hpos := hs.length_pos
  simp only [List.length_append] at hlength
  obtain ⟨items, rfl, hitems⟩ := h depth rest (by omega) hrest
  have hstatement := hreads depth (rest.prepend us) (by omega)
    (fun hblock => hdelimited.follows hblock hbody hrest)
  rw [Tokens.prepend_append]
  by_cases hkind : (rest.prepend us).kind = .semicolon
  · rw [afterSemicolon, if_pos hkind] at hstatement
    obtain ⟨more, rfl, hmore⟩ := repeats_of_semicolon hkind hitems
    refine ⟨[s] :: more, rfl, .cons (reads_blockItem_statement hs hstatement) ?_ hmore⟩
    simp only [Tokens.length_front_advance, Tokens.front_prepend, List.length_append]
    omega
  · rw [afterSemicolon, if_neg hkind] at hstatement
    refine ⟨[s] :: items, rfl, .cons (reads_blockItem_statement hs hstatement) ?_ hitems⟩
    simp only [Tokens.front_prepend, List.length_append]
    omega

theorem ReadsBlock.mk {opening closing : Token} {ts : List Token} {body : List Stmt}
    (hopen : opening.kind = .lbrace) (h : ReadsStatements ts body)
    (hclose : closing.kind = .rbrace) : ReadsBlock (opening :: (ts ++ [closing])) body := by
  intro depth rest hlength
  cases depth with
  | zero => simp at hlength
  | succ depth =>
      simp only [List.length_cons, List.length_append, List.length_nil] at hlength
      obtain ⟨items, rfl, hitems⟩ :=
        h depth (rest.prepend [closing]) (by omega) (.inl (by simpa using hclose))
      rw [Rule.block, reads_expect_bind, Tokens.advance_prepend_cons, Tokens.prepend_append]
      refine ⟨hopen, reads_bind.mpr ⟨items.flatten, rest.prepend [closing], ?_, ?_⟩⟩
      · exact reads_bind.mpr ⟨items, _, hitems.reads, reads_pure.mpr ⟨rfl, rfl⟩⟩
      · rw [reads_expect_bind, reads_pure]
        exact ⟨hclose, rfl, rfl⟩

mutual

theorem Chain.reads {loose : List Stratum} {ts : List Token} {e : Expr} :
    Chain loose ts e → ∀ p : Precedence, loose = strata.drop (p.level - 1) → p ≠ .lowest →
      p ≤ .unary → ReadsAt p ts e
  | .operand h, p, hdrop, _, hp => by
      obtain rfl := eq_unary_of_drop_eq_nil hdrop hp
      exact h.reads
  | .tighter h, p, hdrop, hne, hp => by
      obtain ⟨q, hpq, hq, htight, -⟩ := exists_tighter hne hdrop
      exact (h.reads q htight (by rintro rfl; cases hpq) hq).loosen hpq hq
  | .binary hl hop hr, p, hdrop, hne, hp => by
      obtain ⟨q, hpq, hq, htight, hops⟩ := exists_tighter hne hdrop
      obtain ⟨hsuffix, hprecedence⟩ := hops _ hop
      exact (hl.reads p hdrop hne hp).binary (hr.reads q htight (by rintro rfl; cases hpq) hq)
        hl.starts hr.starts hsuffix hprecedence hpq hq

theorem Unary.reads {ts : List Token} {e : Expr} : Unary ts e → ReadsAt .unary ts e
  | .sign ht h => .sign ht h.reads h.starts
  | .suffixed h => h.reads.readsAt

theorem Suffixed.reads {ts : List Token} {e : Expr} : Suffixed ts e → ReadsSuffixed ts e
  | .primary h => h.reads.suffixed
  | .call h hopen hargs hclose => h.reads.call h.starts hopen hargs.reads hclose
  | .index h hopen hi hclose =>
      h.reads.index h.starts hopen (hi.reads .logical rfl (by decide) (by decide)) hi.starts hclose

theorem Primary.reads {ts : List Token} {e : Expr} : Primary ts e → ReadsOperand ts e
  | .leaf h => .leaf h
  | .group hopen h hclose =>
      .group hopen (h.reads .logical rfl (by decide) (by decide)) h.starts hclose
  | .array hopen h hclose => .array hopen h.reads hclose
  | .conditional hword hc hbody => .conditional hword hc.reads hbody.reads
  | .alternative hword hc hbody helse halternative =>
      .alternative hword hc.reads hbody.reads helse halternative.reads
  | .loop hword hc hbody => .loop hword hc.reads hbody.reads
  | .function hword hopen hparams hclose hbody =>
      .function hword hopen hparams hclose hbody.reads

theorem Condition.reads {ts : List Token} {e : Expr} : Condition ts e → ReadsCondition ts e
  | .mk hopen h hclose => .mk hopen (h.reads .logical rfl (by decide) (by decide)) h.starts hclose

theorem Args.reads {ts : List Token} {es : List Expr} : Args ts es → ReadsList ts es
  | .nil => .nil
  | .items h => h.reads.list h.starts

theorem Items.reads {ts : List Token} {es : List Expr} : Items ts es → ReadsItems ts es
  | .last h => .last (h.reads .logical rfl (by decide) (by decide)) h.starts
  | .cons h hcomma hes =>
      .cons (h.reads .logical rfl (by decide) (by decide)) h.starts hcomma hes.reads

theorem Block.reads {ts : List Token} {body : List Stmt} : Block ts body → ReadsBlock ts body
  | .mk hopen h hclose => .mk hopen h.reads hclose

theorem Statement.reads {ts : List Token} {s : Stmt} : Statement ts s → ReadsStatement ts s
  | .bind hword hname hassign h =>
      .bind hword hname hassign (h.reads .logical rfl (by decide) (by decide)) h.starts
  | .ret hword h => .ret hword (h.reads .logical rfl (by decide) (by decide)) h.starts
  | .expr h => .expr (h.reads .logical rfl (by decide) (by decide)) h.starts
  | .block (.mk hopen h hclose) => .block hopen (.mk hopen h.reads hclose)

theorem Statements.reads {ts : List Token} {body : List Stmt} :
    Statements ts body → ReadsStatements ts body
  | .nil => .nil
  | .separator ht h => .separator ht h.reads
  | .closed hs ht h => .closed hs hs.reads ht h.reads
  | .bare hs hdelimited h => .bare hs hs.reads hdelimited h h.reads

end

end Monkey.Grammar
