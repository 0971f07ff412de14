import Mathlib.Tactic.Common
import Monkey.Program.Parse

/-! # What rules read

A rule that succeeds takes some tokens off the front of a sequence. `Reads` relates the sequence
before, the tree, and the sequence after; its laws take a composite rule apart into the rules it is
made of, so that later proofs never look at how rules carry their state.
-/

namespace Monkey

namespace Tokens

/-- The sequence with further tokens in front. -/
def prepend (ts : List Token) (rest : Tokens) : Tokens :=
  { rest with front := ts ++ rest.front }

variable {ts us : List Token} {t : Token} {rest : Tokens}

@[simp]
theorem prepend_nil : rest.prepend [] = rest := rfl

@[simp]
theorem front_prepend : (rest.prepend ts).front = ts ++ rest.front := rfl

@[simp]
theorem current_prepend_cons : (rest.prepend (t :: ts)).current = t := rfl

@[simp]
theorem kind_prepend_cons : (rest.prepend (t :: ts)).kind = t.kind := rfl

@[simp]
theorem advance_prepend_cons : (rest.prepend (t :: ts)).advance = rest.prepend ts := rfl

theorem prepend_append : rest.prepend (ts ++ us) = (rest.prepend us).prepend ts := by
  simp [prepend]

@[simp]
theorem prepend_prepend : (rest.prepend us).prepend ts = rest.prepend (ts ++ us) :=
  prepend_append.symm

@[simp]
theorem toList_prepend : (rest.prepend ts).toList = ts ++ rest.toList :=
  List.append_assoc ..

theorem getElem?_toList_zero (tokens : Tokens) : tokens.toList[0]? = some tokens.current := by
  obtain ⟨front, last, hlast⟩ := tokens
  cases front with
  | nil => rfl
  | cons t front => rfl

/-- A token that is no end marker stands in front of the rest. -/
theorem eq_prepend_advance (h : rest.kind ≠ .eof) : rest = rest.advance.prepend [rest.current] := by
  obtain ⟨front, last, hlast⟩ := rest
  cases front with
  | nil => exact absurd hlast h
  | cons t ts => rfl

/-- Where no other token marks the end, an end marker in front is the last token. -/
theorem front_eq_nil_of_eof (hsingle : ∀ t ∈ rest.front, t.kind ≠ .eof) (heof : rest.kind = .eof) :
    rest.front = [] := by
  cases hfront : rest.front with
  | nil => rfl
  | cons t ts =>
      have hkind : t.kind = .eof := by simpa [kind, current, hfront] using heof
      exact absurd hkind (hsingle t (by simp [hfront]))

/-- What is left of a sequence after some of its tokens have been taken off the front. -/
def IsSuffix (rest tokens : Tokens) : Prop :=
  ∃ ts, tokens = rest.prepend ts

theorem IsSuffix.trans {first second third : Tokens} (h : first.IsSuffix second)
    (h' : second.IsSuffix third) : first.IsSuffix third := by
  obtain ⟨ts, rfl⟩ := h
  obtain ⟨us, rfl⟩ := h'
  exact ⟨us ++ ts, prepend_prepend⟩

theorem IsSuffix.length_le {rest tokens : Tokens} (h : rest.IsSuffix tokens) :
    rest.front.length ≤ tokens.front.length := by
  obtain ⟨ts, rfl⟩ := h
  simp

theorem IsSuffix.mem {rest tokens : Tokens} (h : rest.IsSuffix tokens) {t : Token}
    (ht : t ∈ rest.front) : t ∈ tokens.front := by
  obtain ⟨ts, rfl⟩ := h
  simp [ht]

theorem isSuffix_advance (tokens : Tokens) : tokens.advance.IsSuffix tokens := by
  obtain ⟨front, last, hlast⟩ := tokens
  cases front with
  | nil => exact ⟨[], rfl⟩
  | cons t ts => exact ⟨[t], rfl⟩

end Tokens

namespace Rule

variable {α β : Type} {tokens rest : Tokens} {token : Token} {kind : Token.Kind}

/-- What a rule delivers, and the tokens it leaves. -/
def outcome (rule : Rule α) (tokens : Tokens) : Except Diagnostic α × Tokens :=
  rule.run.run tokens

/-- The rule succeeds with the given tree and leaves the given tokens. -/
def Reads (rule : Rule α) (tokens : Tokens) (a : α) (rest : Tokens) : Prop :=
  rule.outcome tokens = (.ok a, rest)

theorem outcome_bind (rule : Rule α) (next : α → Rule β) (tokens : Tokens) :
    (rule >>= next).outcome tokens =
      match rule.outcome tokens with
      | (.ok a, middle) => (next a).outcome middle
      | (.error d, middle) => (.error d, middle) := by
  change (match rule.outcome tokens with
    | (result, middle) => ExceptT.bindCont next result middle) = _
  rcases rule.outcome tokens with ⟨_ | a, middle⟩ <;> rfl

theorem outcome_bind_of_reads {rule : Rule α} {next : α → Rule β} {a : α}
    (hrule : rule.Reads tokens a rest) :
    (rule >>= next).outcome tokens = (next a).outcome rest := by
  rw [outcome_bind, hrule]

theorem outcome_bind_of_error {rule : Rule α} {next : α → Rule β} {d : Diagnostic}
    (hrule : rule.outcome tokens = (.error d, rest)) :
    (rule >>= next).outcome tokens = (.error d, rest) := by
  rw [outcome_bind, hrule]

theorem outcome_bind_congr {rule : Rule α} {next next' : α → Rule β}
    (hnext : ∀ a middle, rule.Reads tokens a middle →
      (next a).outcome middle = (next' a).outcome middle) :
    (rule >>= next).outcome tokens = (rule >>= next').outcome tokens := by
  rw [outcome_bind, outcome_bind]
  rcases hrule : rule.outcome tokens with ⟨d | a, middle⟩
  · rfl
  · exact hnext a middle hrule

theorem reads_bind {rule : Rule α} {next : α → Rule β} {b : β} :
    (rule >>= next).Reads tokens b rest ↔
      ∃ a middle, rule.Reads tokens a middle ∧ (next a).Reads middle b rest := by
  unfold Reads
  rw [outcome_bind]
  rcases rule.outcome tokens with ⟨d | a, middle⟩
  · simp
  · constructor
    · intro hnext
      exact ⟨a, middle, rfl, hnext⟩
    · rintro ⟨_, _, heq, hnext⟩
      cases heq
      exact hnext

@[simp]
theorem reads_pure {a b : α} : (pure a : Rule α).Reads tokens b rest ↔ a = b ∧ tokens = rest := by
  change ((.ok a, tokens) : Except Diagnostic α × Tokens) = (.ok b, rest) ↔ _
  simp

@[simp]
theorem reads_map {rule : Rule α} {f : α → β} {b : β} :
    (f <$> rule).Reads tokens b rest ↔ ∃ a, rule.Reads tokens a rest ∧ f a = b := by
  rw [map_eq_pure_bind, reads_bind]
  constructor
  · rintro ⟨a, middle, hrule, hpure⟩
    obtain ⟨rfl, rfl⟩ := reads_pure.mp hpure
    exact ⟨a, hrule, rfl⟩
  · rintro ⟨a, hrule, rfl⟩
    exact ⟨a, rest, hrule, reads_pure.mpr ⟨rfl, rfl⟩⟩

@[simp]
theorem reads_get {tokens' : Tokens} :
    (get : Rule Tokens).Reads tokens tokens' rest ↔ tokens = tokens' ∧ tokens = rest := by
  change ((.ok tokens, tokens) : Except Diagnostic Tokens × Tokens) = (.ok tokens', rest) ↔ _
  simp

@[simp]
theorem not_reads_fail {cause : Diagnostic.Cause} {a : α} :
    ¬ (fail cause token : Rule α).Reads tokens a rest := by
  intro hreads
  change ((.error _, tokens) : Except Diagnostic α × Tokens) = (.ok a, rest) at hreads
  simp at hreads

@[simp]
theorem reads_peek : peek.Reads tokens token rest ↔ tokens.current = token ∧ tokens = rest := by
  simp only [peek, reads_bind, reads_get, reads_pure]
  constructor
  · rintro ⟨_, _, ⟨rfl, rfl⟩, htoken, rfl⟩
    exact ⟨htoken, rfl⟩
  · rintro ⟨htoken, rfl⟩
    exact ⟨_, _, ⟨rfl, rfl⟩, htoken, rfl⟩

@[simp]
theorem reads_skip {u : Unit} : skip.Reads tokens u rest ↔ tokens.advance = rest := by
  change ((.ok (), tokens.advance) : Except Diagnostic Unit × Tokens) = (.ok u, rest) ↔ _
  simp

theorem reads_peek_bind {next : Token → Rule β} {b : β} :
    (peek >>= next).Reads tokens b rest ↔ (next tokens.current).Reads tokens b rest := by
  simp [reads_bind]

theorem reads_skip_bind {next : Unit → Rule β} {b : β} :
    (skip >>= next).Reads tokens b rest ↔ (next ()).Reads tokens.advance b rest := by
  simp only [reads_bind, reads_skip]
  constructor
  · rintro ⟨_, _, rfl, hnext⟩
    exact hnext
  · intro hnext
    exact ⟨(), _, rfl, hnext⟩

@[simp]
theorem reads_expect : (expect kind).Reads tokens token rest ↔
    tokens.kind = kind ∧ tokens.current = token ∧ tokens.advance = rest := by
  rw [expect, reads_peek_bind]
  by_cases hkind : tokens.current.kind = kind
  · simp [hkind, Tokens.kind, and_comm]
  · simp [hkind, Tokens.kind]

theorem reads_expect_bind {next : Token → Rule β} {b : β} :
    (expect kind >>= next).Reads tokens b rest ↔
      tokens.kind = kind ∧ (next tokens.current).Reads tokens.advance b rest := by
  simp [reads_bind]

theorem reads_accept {found : Bool} : (accept kind).Reads tokens found rest ↔
    if tokens.kind = kind then found = true ∧ tokens.advance = rest
    else found = false ∧ tokens = rest := by
  rw [accept, reads_peek_bind]
  by_cases hkind : tokens.current.kind = kind
  · simp [hkind, Tokens.kind, and_comm, eq_comm]
  · simp [hkind, Tokens.kind, eq_comm]

theorem reads_accept_bind {next : Bool → Rule β} {b : β} :
    (accept kind >>= next).Reads tokens b rest ↔
      if tokens.kind = kind then (next true).Reads tokens.advance b rest
      else (next false).Reads tokens b rest := by
  simp only [reads_bind, reads_accept]
  split <;> simp

theorem reads_name {name : String} : Rule.name.Reads tokens name rest ↔
    tokens.kind = .ident ∧ tokens.current.literal = name ∧ tokens.advance = rest := by
  rw [Rule.name, reads_expect_bind, reads_pure]

/-- A further item of a list stands behind a comma. -/
theorem reads_furtherItem {item : Rule α} {found : Option α} :
    (furtherItem item).Reads tokens found rest ↔
      if tokens.kind = .comma then ∃ a, item.Reads tokens.advance a rest ∧ some a = found
      else none = found ∧ tokens = rest := by
  rw [furtherItem, reads_accept_bind]
  split <;> simp

/-- What stands at the front of the statements of a block: their end, a semicolon or a statement. -/
theorem reads_blockItem {statement : Rule Stmt} {found : Option (List Stmt)} :
    (blockItem statement).Reads tokens found rest ↔
      if tokens.kind = .rbrace ∨ tokens.kind = .eof then none = found ∧ tokens = rest
      else if tokens.kind = .semicolon then some [] = found ∧ tokens.advance = rest
      else ∃ s, statement.Reads tokens s rest ∧ some [s] = found := by
  rw [blockItem, reads_peek_bind, Tokens.kind]
  split
  next hkind => simp [hkind]
  next hkind => simp [hkind]
  next hkind => simp [hkind, and_comm]
  next hrbrace heof hsemicolon =>
    rw [if_neg (not_or.mpr ⟨hrbrace, heof⟩), if_neg hsemicolon]
    simp

/-! ## Repetition

A step of a repetition reads at least one token whenever it delivers something, so a repetition
that may take as many steps as there are tokens is never cut short. -/

section Repetition

variable {step : Rule (Option α)} {items : List α}

theorem reads_many_succ {count : Nat} : (many step (count + 1)).Reads tokens items rest ↔
    (step.Reads tokens none rest ∧ items = []) ∨
      ∃ a as middle, step.Reads tokens (some a) middle ∧ (many step count).Reads middle as rest ∧
        items = a :: as := by
  rw [many, reads_bind]
  constructor
  · rintro ⟨item, middle, hstep, hrest⟩
    cases item with
    | none =>
        obtain ⟨rfl, rfl⟩ := reads_pure.mp hrest
        exact .inl ⟨hstep, rfl⟩
    | some a =>
        obtain ⟨as, middle', has, hpure⟩ := reads_bind.mp hrest
        obtain ⟨rfl, rfl⟩ := reads_pure.mp hpure
        exact .inr ⟨a, as, middle, hstep, has, rfl⟩
  · rintro (⟨hstep, rfl⟩ | ⟨a, as, middle, hstep, has, rfl⟩)
    · exact ⟨none, rest, hstep, reads_pure.mpr ⟨rfl, rfl⟩⟩
    · exact ⟨some a, middle, hstep, reads_bind.mpr ⟨as, rest, has, reads_pure.mpr ⟨rfl, rfl⟩⟩⟩

theorem reads_manyToEnd : (manyToEnd step).Reads tokens items rest ↔
    (many step tokens.front.length).Reads tokens items rest := by
  rw [manyToEnd, reads_bind]
  simp

/-- The repetition reads the items and stops, however many more steps it may take. -/
def Repeats (step : Rule (Option α)) (tokens : Tokens) (items : List α) (rest : Tokens) : Prop :=
  ∀ count, tokens.front.length ≤ count → (many step count).Reads tokens items rest

theorem Repeats.nil (hstep : step.Reads tokens none tokens) : Repeats step tokens [] tokens := by
  intro count _
  cases count with
  | zero => exact reads_pure.mpr ⟨rfl, rfl⟩
  | succ count => exact reads_many_succ.mpr (.inl ⟨hstep, rfl⟩)

theorem Repeats.cons {middle : Tokens} {a : α} (hstep : step.Reads tokens (some a) middle)
    (hlength : middle.front.length < tokens.front.length)
    (hrest : Repeats step middle items rest) : Repeats step tokens (a :: items) rest := by
  intro count hcount
  cases count with
  | zero => omega
  | succ count =>
      have hitems := hrest count (by omega)
      exact reads_many_succ.mpr (.inr ⟨a, items, middle, hstep, hitems, rfl⟩)

theorem Repeats.reads (h : Repeats step tokens items rest) :
    (manyToEnd step).Reads tokens items rest :=
  reads_manyToEnd.mpr (h _ (Nat.le_refl _))

/-- What holds where the repetition stops, and is kept by putting one more step in front, holds of
everything that a repetition reads. -/
theorem manyToEnd_induct {motive : Tokens → List α → Tokens → Prop}
    (stop : ∀ tokens rest, step.Reads tokens none rest → motive tokens [] rest)
    (done : ∀ tokens, tokens.front = [] → motive tokens [] tokens)
    (next : ∀ tokens a middle items rest, step.Reads tokens (some a) middle →
      motive middle items rest → motive tokens (a :: items) rest)
    (progress : ∀ tokens a middle, step.Reads tokens (some a) middle →
      middle.front.length < tokens.front.length)
    (h : (manyToEnd step).Reads tokens items rest) : motive tokens items rest := by
  -- The count is only a bound: it starts as the number of tokens, and each step takes one of them.
  have hmany : ∀ count tokens items, tokens.front.length ≤ count →
      (many step count).Reads tokens items rest → motive tokens items rest := by
    intro count
    induction count with
    | zero =>
        intro tokens items hlength hreads
        obtain ⟨rfl, rfl⟩ := reads_pure.mp hreads
        exact done _ (List.eq_nil_of_length_eq_zero (by omega))
    | succ count ih =>
        intro tokens items hlength hreads
        rcases reads_many_succ.mp hreads with ⟨hstep, rfl⟩ | ⟨a, as, middle, hstep, has, rfl⟩
        · exact stop _ _ hstep
        · have hless := progress _ _ _ hstep
          exact next _ _ _ _ _ hstep (ih _ _ (by omega) has)
  exact hmany _ _ _ (Nat.le_refl _) (reads_manyToEnd.mp h)

end Repetition

end Rule

end Monkey
