import Monkey.Proofs.Grammar.Completeness
import Monkey.Proofs.Program.Segments

/-! # Which programs are read without a diagnostic

A program is read without a diagnostic exactly when its tokens derive it. Both directions go through
the segments: none is abandoned, and the statements of the others are those of the derivation.
-/

namespace Monkey.Grammar

open Rule Tokens

variable {tokens rest : Tokens} {segments : List Segment}

/-! ## From segments to a derivation -/

/-- Segments none of which was abandoned are statements and separators. -/
theorem statements_of_segmented (h : Segmented tokens segments rest)
    (hnone : segments.filterMap Segment.diagnostic? = []) :
    ∃ ts, tokens = rest.prepend ts ∧ Statements ts (segments.filterMap Segment.statement?) := by
  induction h with
  | done => exact ⟨[], rfl, .nil⟩
  | @separator tokens rest segments hsemicolon h ih =>
      obtain ⟨ts, hts, hbody⟩ := ih hnone
      refine ⟨tokens.current :: ts, ?_, .separator hsemicolon hbody⟩
      have heof : tokens.kind ≠ .eof := by simp [hsemicolon]
      rw [eq_prepend_advance heof, hts, prepend_prepend]
      rfl
  | statement _ _ houtcome _ ih =>
      obtain ⟨us, hus, hbody⟩ := ih hnone
      obtain ⟨ts, middle, rfl, hs, hdelimited, hmiddle⟩ := topStatement_sound houtcome
      exact Statements.cons hs hdelimited hmiddle hus hbody
  | abandoned => simp [Segment.diagnostic?] at hnone

/-! ## From a derivation to segments -/

/-- Tokens that derive a statement are a segment, together with a semicolon that follows. -/
theorem Statement.segmented {ts : List Token} {s : Stmt} {middle : Tokens} (hs : Statement ts s)
    (hfollows : (∀ body, s ≠ .block body) → Follows .lowest middle)
    (h : Segmented (afterSemicolon middle) segments rest) :
    Segmented (middle.prepend ts) (.statement s :: segments) rest := by
  have hreads : (middle.prepend ts).topStatement.Reads (middle.prepend ts) s
      (afterSemicolon middle) := by
    refine hs.reads _ middle ?_ hfollows
    simp
  obtain ⟨t, us, rfl, ht⟩ := hs.starts
  have heof : t.kind ≠ .eof := fun heq => absurd (heq ▸ ht) (by decide)
  have hsemicolon : t.kind ≠ .semicolon := fun heq => absurd (heq ▸ ht) (by decide)
  exact .statement heof hsemicolon hreads h

/-- Segments that start with a semicolon go on behind it. -/
theorem segmented_of_semicolon (hkind : tokens.kind = .semicolon)
    (h : Segmented tokens segments rest) :
    ∃ more, segments = .separator :: more ∧ Segmented tokens.advance more rest := by
  cases h with
  | done heof => simp [heof] at hkind
  | separator _ h => exact ⟨_, rfl, h⟩
  | statement _ hne => exact absurd hkind hne
  | abandoned _ hne => exact absurd hkind hne

/-- The segments of tokens that derive a program are its statements and separators. -/
def ReadsProgram (ts : List Token) (program : Program) : Prop :=
  ∀ rest : Tokens, rest.kind = .eof → ∃ segments, Segmented (rest.prepend ts) segments rest ∧
    segments.filterMap Segment.statement? = program ∧
    segments.filterMap Segment.diagnostic? = []

theorem ReadsProgram.nil : ReadsProgram [] [] :=
  fun _ hrest => ⟨[], .done hrest, rfl, rfl⟩

theorem ReadsProgram.separator {t : Token} {ts : List Token} {body : List Stmt}
    (ht : t.kind = .semicolon) (h : ReadsProgram ts body) : ReadsProgram (t :: ts) body := by
  intro rest hrest
  obtain ⟨segments, hsegmented, rfl, hnone⟩ := h rest hrest
  exact ⟨.separator :: segments, .separator ht hsegmented, rfl, hnone⟩

theorem ReadsProgram.closed {ts us : List Token} {t : Token} {s : Stmt} {body : List Stmt}
    (hs : Statement ts s) (ht : t.kind = .semicolon) (h : ReadsProgram us body) :
    ReadsProgram (ts ++ t :: us) (s :: body) := by
  intro rest hrest
  obtain ⟨segments, hsegmented, rfl, hnone⟩ := h rest hrest
  rw [prepend_append]
  refine ⟨.statement s :: segments, hs.segmented (fun _ => .of_kind ht rfl (by decide)) ?_, rfl,
    hnone⟩
  rw [afterSemicolon, if_pos (by simpa using ht), advance_prepend_cons]
  exact hsegmented

theorem ReadsProgram.bare {ts us : List Token} {s : Stmt} {body : List Stmt} (hs : Statement ts s)
    (hdelimited : Delimited s us) (hbody : Statements us body) (h : ReadsProgram us body) :
    ReadsProgram (ts ++ us) (s :: body) := by
  intro rest hrest
  obtain ⟨segments, hsegmented, rfl, hnone⟩ := h rest hrest
  rw [prepend_append]
  have hfollows : (∀ body, s ≠ .block body) → Follows .lowest (rest.prepend us) :=
    fun hblock => hdelimited.follows hblock hbody (.inr hrest)
  by_cases hkind : (rest.prepend us).kind = .semicolon
  · obtain ⟨more, rfl, hmore⟩ := segmented_of_semicolon hkind hsegmented
    refine ⟨.statement s :: more, hs.segmented hfollows ?_, rfl, hnone⟩
    rw [afterSemicolon, if_pos hkind]
    exact hmore
  · refine ⟨.statement s :: segments, hs.segmented hfollows ?_, rfl, hnone⟩
    rw [afterSemicolon, if_neg hkind]
    exact hsegmented

theorem Statements.readsProgram {ts : List Token} {program : Program} :
    Statements ts program → ReadsProgram ts program
  | .nil => .nil
  | .separator ht h => .separator ht h.readsProgram
  | .closed hs ht h => .closed hs ht h.readsProgram
  | .bare hs hdelimited h => .bare hs hdelimited h h.readsProgram

/-! ## Acceptance -/

/-- Tokens that derive a program are read as that program and nothing else. -/
theorem Statements.parseProgram_eq {program : Program} (h : Statements tokens.front program) :
    tokens.parseProgram.1 = ⟨program, []⟩ := by
  obtain ⟨front, last, hlast⟩ := tokens
  obtain ⟨segments, hsegmented, rfl, hnone⟩ := h.readsProgram ⟨[], last, hlast⟩ hlast
  rw [prepend, List.append_nil] at hsegmented
  rw [hsegmented.parseProgram_eq, hnone]

/-- Tokens with a single end marker, at their end, are read without a diagnostic exactly when the
tokens before the marker derive a program, and the program read is the one they derive. -/
theorem parseProgram_eq_iff_statements (hsingle : ∀ t ∈ tokens.front, t.kind ≠ .eof)
    (program : Program) :
    tokens.parseProgram.1 = ⟨program, []⟩ ↔ Statements tokens.front program := by
  refine ⟨fun hparse => ?_, Statements.parseProgram_eq⟩
  obtain ⟨segments, rest, hsegmented⟩ := tokens.exists_segmented
  rw [hsegmented.parseProgram_eq, Parsed.mk.injEq] at hparse
  obtain ⟨rfl, hnone⟩ := hparse
  obtain ⟨ts, rfl, hbody⟩ := statements_of_segmented hsegmented hnone
  -- Reading ends at a token that marks the end, and only the last one does.
  have hrest : rest.front = [] := by
    cases hfront : rest.front with
    | nil => rfl
    | cons t us =>
        have hkind : t.kind = .eof := by simpa [kind, current, hfront] using hsegmented.kind_eq
        exact absurd hkind (hsingle t (by simp [hfront]))
  rw [front_prepend, hrest, List.append_nil]
  exact hbody

/-- The tokens of a product. -/
def product : Tokens :=
  ⟨[⟨.ident, "a", ⟨1, 1⟩⟩, ⟨.asterisk, "*", ⟨1, 3⟩⟩, ⟨.ident, "b", ⟨1, 5⟩⟩], ⟨.eof, "", ⟨1, 6⟩⟩,
    rfl⟩

theorem statements_product : (∀ t ∈ product.front, t.kind ≠ .eof) ∧
    Statements product.front [.expr (.binary .multiply (.ident "a") (.ident "b"))] := by
  have hsingle : ∀ t ∈ product.front, t.kind ≠ .eof := by decide
  exact ⟨hsingle, (parseProgram_eq_iff_statements hsingle _).mp rfl⟩

end Monkey.Grammar
