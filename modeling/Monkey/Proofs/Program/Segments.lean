import Monkey.Proofs.Grammar.Soundness
import Monkey.Proofs.Program.Reading

/-! # The segments of a program

Reading a program cuts its tokens into segments up to the first end marker. `Segmented` says what
each segment is, without the bound on their number that the reader carries: every segment takes at
least one token, so the bound is never reached.
-/

namespace Monkey.Tokens

open Rule

/-- The rule that reads one statement of a program from the given tokens. -/
def topStatement (tokens : Tokens) : Rule Stmt :=
  Rule.statement (Rule.expression tokens.front.length .lowest) (Rule.block tokens.front.length)

theorem careful_topStatement (tokens : Tokens) : Careful tokens.topStatement :=
  .statement ((careful_expression_block _).1 _) (careful_expression_block _).2

theorem isSuffix_of_topStatement {tokens rest : Tokens} {result : Except Diagnostic Stmt}
    (houtcome : tokens.topStatement.outcome tokens = (result, rest)) : rest.IsSuffix tokens := by
  obtain ⟨ts, htokens, -⟩ := tokens.careful_topStatement tokens
  rw [houtcome] at htokens
  exact ⟨ts, htokens⟩

/-- The segments of a sequence, and the tokens from the first end marker on. -/
inductive Segmented : Tokens → List Segment → Tokens → Prop
  | done {tokens : Tokens} : tokens.kind = .eof → Segmented tokens [] tokens
  | separator {tokens rest : Tokens} {segments : List Segment} :
      tokens.kind = .semicolon → Segmented tokens.advance segments rest →
        Segmented tokens (.separator :: segments) rest
  | statement {tokens middle rest : Tokens} {s : Stmt} {segments : List Segment} :
      tokens.kind ≠ .eof → tokens.kind ≠ .semicolon →
        tokens.topStatement.outcome tokens = (.ok s, middle) → Segmented middle segments rest →
          Segmented tokens (.statement s :: segments) rest
  | abandoned {tokens middle rest : Tokens} {d : Diagnostic} {segments : List Segment} :
      tokens.kind ≠ .eof → tokens.kind ≠ .semicolon →
        tokens.topStatement.outcome tokens = (.error d, middle) →
          Segmented middle.synchronize segments rest →
            Segmented tokens (.abandoned d :: segments) rest

variable {tokens rest : Tokens} {segments : List Segment}

/-! ## Progress -/

theorem topStatement_sound {s : Stmt} (h : tokens.topStatement.Reads tokens s rest) :
    ∃ ts middle, tokens = middle.prepend ts ∧ Grammar.Statement ts s ∧
      Grammar.Delimited s middle.front ∧
      (middle = rest ∨ ∃ t, t.kind = .semicolon ∧ middle = rest.prepend [t]) :=
  have hsound := Grammar.expression_block_sound tokens.front.length
  Grammar.statement_sound hsound.1 hsound.2 h

theorem topStatement_progress {s : Stmt} (h : tokens.topStatement.Reads tokens s rest) :
    rest.front.length < tokens.front.length :=
  have hsound := Grammar.expression_block_sound tokens.front.length
  Grammar.statement_progress hsound.1 hsound.2 h

/-- The tokens from the next semicolon or end marker on. -/
def toBoundary (tokens : Tokens) : Tokens :=
  { tokens with front := tokens.front.dropWhile fun t => t.kind ≠ .semicolon ∧ t.kind ≠ .eof }

theorem synchronize_eq (tokens : Tokens) : tokens.synchronize =
    if tokens.toBoundary.kind = .semicolon then tokens.toBoundary.advance else tokens.toBoundary :=
  rfl

theorem isSuffix_toBoundary (tokens : Tokens) : tokens.toBoundary.IsSuffix tokens := by
  refine ⟨tokens.front.takeWhile fun t => t.kind ≠ .semicolon ∧ t.kind ≠ .eof, ?_⟩
  simp [prepend, toBoundary]

theorem isSuffix_synchronize (tokens : Tokens) : tokens.synchronize.IsSuffix tokens := by
  rw [synchronize_eq]
  split
  · exact (isSuffix_advance _).trans tokens.isSuffix_toBoundary
  · exact tokens.isSuffix_toBoundary

/-- Skipping to a boundary after a failure gets past the token where the statement started. -/
theorem synchronize_progress (heof : tokens.kind ≠ .eof) (hsemicolon : tokens.kind ≠ .semicolon)
    (h : rest.IsSuffix tokens) : rest.synchronize.front.length < tokens.front.length := by
  have hshorter := rest.isSuffix_synchronize.length_le
  obtain ⟨ts, rfl⟩ := h
  cases ts with
  | cons t ts =>
      simp only [front_prepend, List.length_append, List.length_cons]
      omega
  | nil =>
      rw [prepend_nil] at heof hsemicolon ⊢
      -- the failure was at the first token, which is dropped because it is no boundary
      rw [eq_prepend_advance heof]
      have hdrop : (rest.advance.prepend [rest.current]).synchronize =
          rest.advance.synchronize := by
        have hkind : rest.current.kind ≠ .semicolon ∧ rest.current.kind ≠ .eof := ⟨hsemicolon, heof⟩
        simp [synchronize, prepend, hkind]
      rw [hdrop]
      have hshorter := rest.advance.isSuffix_synchronize.length_le
      simp only [front_prepend, List.length_append, List.length_cons, List.length_nil]
      omega

/-! ## Reading segments -/

/-- One segment, as a function of the tokens. -/
def nextSegment (tokens : Tokens) : Option Segment × Tokens :=
  segment.run tokens

/-- At most the given number of segments, as a function of the tokens. -/
def segmentsUpTo (count : Nat) (tokens : Tokens) : List Segment × Tokens :=
  (many segment count).run tokens

theorem nextSegment_eq (tokens : Tokens) : tokens.nextSegment =
    if tokens.kind = .eof then (none, tokens)
    else if tokens.kind = .semicolon then (some .separator, tokens.advance)
    else
      match tokens.topStatement.outcome tokens with
      | (.ok s, rest) => (some (.statement s), rest)
      | (.error d, rest) => (some (.abandoned d), rest.synchronize) := by
  unfold nextSegment segment
  simp only [StateT.run_bind, StateT.run_get, pure_bind]
  split
  next h =>
    simp only [h, ↓reduceIte]
    rfl
  next h =>
    simp only [h, reduceCtorEq, ↓reduceIte]
    rfl
  next heof hsemicolon =>
    rw [if_neg heof, if_neg hsemicolon]
    have hrun : tokens.topStatement.run.run tokens = tokens.topStatement.outcome tokens := rfl
    rw [StateT.run_bind, ← topStatement, hrun]
    rcases tokens.topStatement.outcome tokens with ⟨d | s, rest⟩ <;> rfl

theorem segmentsUpTo_succ (count : Nat) (tokens : Tokens) : tokens.segmentsUpTo (count + 1) =
    match tokens.nextSegment with
    | (none, rest) => ([], rest)
    | (some first, rest) =>
      (first :: (rest.segmentsUpTo count).1, (rest.segmentsUpTo count).2) := by
  unfold segmentsUpTo
  have hrun : segment.run tokens = tokens.nextSegment := rfl
  rw [many, StateT.run_bind, hrun]
  rcases tokens.nextSegment with ⟨_ | first, rest⟩ <;> rfl

theorem segmented_segmentsUpTo (count : Nat) (tokens : Tokens)
    (hcount : tokens.front.length ≤ count) :
    Segmented tokens (tokens.segmentsUpTo count).1 (tokens.segmentsUpTo count).2 := by
  induction count generalizing tokens with
  | zero =>
      have hfront := List.eq_nil_of_length_eq_zero (Nat.le_zero.mp hcount)
      exact .done (kind_of_front_eq_nil hfront)
  | succ count ih =>
      rw [segmentsUpTo_succ, nextSegment_eq]
      by_cases heof : tokens.kind = .eof
      · rw [if_pos heof]
        exact .done heof
      · rw [if_neg heof]
        by_cases hsemicolon : tokens.kind = .semicolon
        · rw [if_pos hsemicolon]
          exact .separator hsemicolon (ih _ (by rw [length_front_advance]; omega))
        · rw [if_neg hsemicolon]
          rcases houtcome : tokens.topStatement.outcome tokens with ⟨d | s, middle⟩
          · have hless := synchronize_progress heof hsemicolon (isSuffix_of_topStatement houtcome)
            exact .abandoned heof hsemicolon houtcome (ih _ (by omega))
          · have hless := topStatement_progress houtcome
            exact .statement heof hsemicolon houtcome (ih _ (by omega))

/-- The tokens decide their segments. -/
theorem Segmented.unique {segments' : List Segment} {rest' : Tokens}
    (h : Segmented tokens segments rest) (h' : Segmented tokens segments' rest') :
    segments = segments' ∧ rest = rest' := by
  induction h generalizing segments' rest' with
  | done heof =>
      cases h' with
      | done => exact ⟨rfl, rfl⟩
      | separator hsemicolon => simp [heof] at hsemicolon
      | statement hne => exact absurd heof hne
      | abandoned hne => exact absurd heof hne
  | separator hsemicolon _ ih =>
      cases h' with
      | done heof => simp [heof] at hsemicolon
      | separator _ h' =>
          obtain ⟨rfl, rfl⟩ := ih h'
          exact ⟨rfl, rfl⟩
      | statement _ hne => exact absurd hsemicolon hne
      | abandoned _ hne => exact absurd hsemicolon hne
  | statement heof hsemicolon houtcome _ ih =>
      cases h' with
      | done heof' => exact absurd heof' heof
      | separator hsemicolon' => exact absurd hsemicolon' hsemicolon
      | statement _ _ houtcome' h' =>
          cases houtcome.symm.trans houtcome'
          obtain ⟨rfl, rfl⟩ := ih h'
          exact ⟨rfl, rfl⟩
      | abandoned _ _ houtcome' => cases houtcome.symm.trans houtcome'
  | abandoned heof hsemicolon houtcome _ ih =>
      cases h' with
      | done heof' => exact absurd heof' heof
      | separator hsemicolon' => exact absurd hsemicolon' hsemicolon
      | statement _ _ houtcome' => cases houtcome.symm.trans houtcome'
      | abandoned _ _ houtcome' h' =>
          cases houtcome.symm.trans houtcome'
          obtain ⟨rfl, rfl⟩ := ih h'
          exact ⟨rfl, rfl⟩

/-- A program is what its segments contribute. -/
theorem Segmented.parseProgram_eq (h : Segmented tokens segments rest) : tokens.parseProgram =
    (⟨segments.filterMap Segment.statement?, segments.filterMap Segment.diagnostic?⟩, rest) := by
  obtain ⟨rfl, rfl⟩ := h.unique (segmented_segmentsUpTo _ tokens (Nat.le_refl _))
  rfl

theorem exists_segmented (tokens : Tokens) : ∃ segments rest, Segmented tokens segments rest :=
  ⟨_, _, segmented_segmentsUpTo _ tokens (Nat.le_refl _)⟩

theorem Segmented.kind_eq (h : Segmented tokens segments rest) : rest.kind = .eof := by
  induction h with
  | done heof => exact heof
  | separator _ _ ih => exact ih
  | statement _ _ _ _ ih => exact ih
  | abandoned _ _ _ _ ih => exact ih

end Monkey.Tokens
