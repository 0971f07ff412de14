import Mathlib.Data.List.Forall2
import Monkey.Proofs.Grammar.Acceptance

/-! # Recovery from statements that cannot be read

Reading a program cuts its tokens, up to the first end marker, into consecutive pieces. A piece is a
semicolon that means nothing, a statement that would be read from the piece alone in the same way,
or a piece that was given up for one diagnostic and ends with a semicolon or at the end marker
(`Cut`). So the diagnostics stand in the order of their tokens, and no more of them can arise than
there are semicolons, and one.
-/

namespace Monkey

open Rule Tokens

/-! ## Pieces -/

/-- What the tokens of a segment are, where `behind` is what follows them. A diagnostic is the one
that a statement read from there is rejected for. -/
def Segment.Spans (ts : List Token) (behind : Tokens) : Segment → Prop
  | separator => ∃ t, ts = [t] ∧ t.kind = .semicolon
  | statement s =>
    (∃ us, Grammar.Statement us s ∧ (ts = us ∨ ∃ t, ts = us ++ [t] ∧ t.kind = .semicolon)) ∧
      ∀ last hlast, (Tokens.mk ts last hlast).parseProgram.1 = ⟨[s], []⟩
  | abandoned d =>
    ((behind.prepend ts).topStatement.outcome (behind.prepend ts)).1 = .error d ∧
      ((∃ t ∈ ts, d.IsAt t) ∨ behind.kind = .eof ∧ d.IsAt behind.current) ∧
      ((∃ us t, ts = us ++ [t] ∧ t.kind = .semicolon) ∨ behind.kind = .eof)

namespace Tokens

/-- The tokens fall into pieces, each with the segment that it contributes, up to the first end
marker. -/
inductive Cut : Tokens → List (List Token × Segment) → Tokens → Prop
  | done {rest : Tokens} : rest.kind = .eof → Cut rest [] rest
  | piece {middle rest : Tokens} {ts : List Token} {segment : Segment}
      {pieces : List (List Token × Segment)} :
      ts ≠ [] → (∀ t ∈ ts, t.kind ≠ .eof) → segment.Spans ts middle →
        Cut middle pieces rest → Cut (middle.prepend ts) ((ts, segment) :: pieces) rest

variable {tokens middle rest : Tokens} {pieces : List (List Token × Segment)}

/-! ## From segments to pieces -/

theorem prepend_left_cancel {ts us : List Token} (h : rest.prepend ts = rest.prepend us) :
    ts = us :=
  List.append_cancel_right (congrArg Tokens.front h)

theorem synchronize_of_eof (hkind : tokens.kind = .eof) : tokens.synchronize = tokens := by
  obtain ⟨front, last, hlast⟩ := tokens
  cases front with
  | nil => simp [synchronize, kind, current, hlast]
  | cons t front =>
      have ht : t.kind = .eof := hkind
      simp [synchronize, kind, current, ht]

theorem synchronize_of_semicolon (hkind : tokens.kind = .semicolon) :
    tokens.synchronize = tokens.advance := by
  obtain ⟨front, last, hlast⟩ := tokens
  cases front with
  | nil => cases hlast.symm.trans hkind
  | cons t front =>
      have ht : t.kind = .semicolon := hkind
      simp [synchronize, kind, current, ht]

theorem synchronize_of_kind (heof : tokens.kind ≠ .eof) (hsemicolon : tokens.kind ≠ .semicolon) :
    tokens.synchronize = tokens.advance.synchronize := by
  obtain ⟨front, last, hlast⟩ := tokens
  cases front with
  | nil => exact absurd hlast heof
  | cons t front =>
      have ht : t.kind ≠ .semicolon ∧ t.kind ≠ .eof := ⟨hsemicolon, heof⟩
      simp [synchronize, advance, ht]

/-- Skipping to a boundary takes everything up to a semicolon, or to the end marker. -/
theorem exists_prepend_synchronize (tokens : Tokens) :
    ∃ us, tokens = tokens.synchronize.prepend us ∧ (∀ t ∈ us, t.kind ≠ .eof) ∧
      ((∃ vs t, us = vs ++ [t] ∧ t.kind = .semicolon) ∨ tokens.synchronize.kind = .eof) := by
  induction hlength : tokens.front.length generalizing tokens with
  | zero =>
      have heof := kind_of_front_eq_nil (List.eq_nil_of_length_eq_zero hlength)
      rw [synchronize_of_eof heof]
      exact ⟨[], rfl, nofun, .inr heof⟩
  | succ count ih =>
      by_cases heof : tokens.kind = .eof
      · rw [synchronize_of_eof heof]
        exact ⟨[], rfl, nofun, .inr heof⟩
      have htokens := eq_prepend_advance heof
      have hone : ∀ t ∈ [tokens.current], t.kind ≠ .eof := by
        intro t ht
        cases List.mem_singleton.mp ht
        exact heof
      by_cases hsemicolon : tokens.kind = .semicolon
      · rw [synchronize_of_semicolon hsemicolon]
        exact ⟨_, htokens, hone, .inl ⟨[], _, rfl, hsemicolon⟩⟩
      · rw [synchronize_of_kind heof hsemicolon]
        obtain ⟨us, hskip, hus, hend⟩ := ih tokens.advance (by simp [hlength])
        refine ⟨tokens.current :: us, ?_, List.forall_mem_append.mpr ⟨hone, hus⟩, ?_⟩
        · rw [hskip, prepend_prepend] at htokens
          exact htokens
        · refine hend.imp_left ?_
          rintro ⟨vs, u, rfl, hu⟩
          exact ⟨tokens.current :: vs, u, rfl, hu⟩

theorem cut_separator (hkind : tokens.kind = .semicolon) (hcut : Cut tokens.advance pieces rest) :
    Cut tokens (([tokens.current], .separator) :: pieces) rest := by
  have heof : tokens.kind ≠ .eof := hkind.trans_ne (by decide)
  have hone : ∀ t ∈ [tokens.current], t.kind ≠ .eof := by
    intro t ht
    cases List.mem_singleton.mp ht
    exact heof
  have hpiece : Cut (tokens.advance.prepend [tokens.current])
      (([tokens.current], .separator) :: pieces) rest :=
    .piece (List.cons_ne_nil _ _) hone ⟨_, rfl, hkind⟩ hcut
  rwa [← eq_prepend_advance heof] at hpiece

/-- The tokens of a statement are read as it, whatever stood around them. -/
theorem spans_statement {s : Stmt} (hreads : tokens.topStatement.Reads tokens s middle) :
    ∃ ts, tokens = middle.prepend ts ∧ ts ≠ [] ∧ (Segment.statement s).Spans ts middle := by
  obtain ⟨us, behind, rfl, hs, -, hmiddle⟩ := topStatement_sound hreads
  have hne : us ≠ [] := List.ne_nil_of_length_pos hs.length_pos
  rcases hmiddle with rfl | ⟨t, ht, rfl⟩
  · have hdelimited : Grammar.Delimited s [] := by
      cases s with
      | block => trivial
      | _ => exact nofun
    have hall := Grammar.Statements.bare hs hdelimited .nil
    rw [List.append_nil] at hall
    exact ⟨us, rfl, hne, ⟨us, hs, .inl rfl⟩, fun last hlast => hall.parseProgram_eq⟩
  · have hall := Grammar.Statements.closed hs ht .nil
    refine ⟨us ++ [t], prepend_prepend, by simp, ⟨us, hs, .inr ⟨t, rfl, ht⟩⟩, fun last hlast => ?_⟩
    exact hall.parseProgram_eq

theorem cut_statement {s : Stmt} (hreads : tokens.topStatement.Reads tokens s middle)
    (hcut : Cut middle pieces rest) :
    ∃ ts, Cut tokens ((ts, .statement s) :: pieces) rest := by
  obtain ⟨us, hread, hus, -⟩ := tokens.careful_topStatement tokens
  rw [show tokens.topStatement.outcome tokens = _ from hreads] at hread
  obtain ⟨ts, htokens, hne, hspans⟩ := spans_statement hreads
  obtain rfl := prepend_left_cancel (htokens.symm.trans hread)
  rw [htokens]
  exact ⟨ts, .piece hne hus hspans hcut⟩

theorem cut_abandoned {d : Diagnostic} (heof : tokens.kind ≠ .eof)
    (hsemicolon : tokens.kind ≠ .semicolon)
    (houtcome : tokens.topStatement.outcome tokens = (.error d, middle))
    (hcut : Cut middle.synchronize pieces rest) :
    ∃ ts, Cut tokens ((ts, .abandoned d) :: pieces) rest := by
  have hprogress := synchronize_progress heof hsemicolon (isSuffix_of_topStatement houtcome)
  obtain ⟨ts, hread, hts, herror⟩ := tokens.careful_topStatement tokens
  rw [houtcome] at hread herror
  obtain ⟨t, ht, hblames⟩ := herror d rfl
  have hat := hblames.isAt
  obtain ⟨us, hskip, hus, hend⟩ := middle.exists_prepend_synchronize
  have htokens : tokens = middle.synchronize.prepend (ts ++ us) := by
    rw [prepend_append, ← hskip]
    exact hread
  have hlocated : (∃ t ∈ ts ++ us, d.IsAt t) ∨
      middle.synchronize.kind = .eof ∧ d.IsAt middle.synchronize.current := by
    rcases List.mem_append.mp ht with ht | ht
    · exact .inl ⟨t, List.mem_append_left us ht, hat⟩
    · rw [List.mem_singleton] at ht
      cases us with
      | nil =>
          -- Nothing was skipped, so reading had stopped at the end marker.
          rw [prepend_nil] at hskip
          rw [← hskip]
          refine .inr ⟨?_, ht ▸ hat⟩
          rcases hend with ⟨vs, u, hnil, -⟩ | hend
          · simp at hnil
          · rwa [← hskip] at hend
      | cons u us =>
          have hu : middle.current = u := by
            rw [hskip]
            exact current_prepend_cons
          exact .inl ⟨u, by simp, hu ▸ ht ▸ hat⟩
  have hclosed : (∃ vs t, ts ++ us = vs ++ [t] ∧ t.kind = .semicolon) ∨
      middle.synchronize.kind = .eof := by
    refine hend.imp_left ?_
    rintro ⟨vs, u, rfl, hu⟩
    exact ⟨ts ++ vs, u, (List.append_assoc ..).symm, hu⟩
  have hne : ts ++ us ≠ [] := by
    intro hnil
    rw [htokens, hnil, prepend_nil] at hprogress
    exact absurd hprogress (Nat.lt_irrefl _)
  have hrejected : (tokens.topStatement.outcome tokens).1 = .error d := by rw [houtcome]
  rw [htokens] at hrejected ⊢
  refine ⟨ts ++ us, .piece hne ?_ ⟨hrejected, hlocated, hclosed⟩ hcut⟩
  exact List.forall_mem_append.mpr ⟨hts, hus⟩

/-- The segments that are read belong to pieces of the tokens. -/
theorem Segmented.exists_cut {segments : List Segment} (h : Segmented tokens segments rest) :
    ∃ pieces, Cut tokens pieces rest ∧ pieces.map Prod.snd = segments := by
  induction h with
  | done heof => exact ⟨[], .done heof, rfl⟩
  | separator hsemicolon _ ih =>
      obtain ⟨pieces, hcut, rfl⟩ := ih
      exact ⟨_, cut_separator hsemicolon hcut, rfl⟩
  | statement _ _ houtcome _ ih =>
      obtain ⟨pieces, hcut, rfl⟩ := ih
      obtain ⟨ts, hcut'⟩ := cut_statement houtcome hcut
      exact ⟨_, hcut', rfl⟩
  | abandoned heof hsemicolon houtcome _ ih =>
      obtain ⟨pieces, hcut, rfl⟩ := ih
      obtain ⟨ts, hcut'⟩ := cut_abandoned heof hsemicolon houtcome hcut
      exact ⟨_, hcut', rfl⟩

/-! ## What follows from the pieces -/

/-- The diagnostics of pieces, in their order. -/
def diagnosticsOf (pieces : List (List Token × Segment)) : List Diagnostic :=
  (pieces.map Prod.snd).filterMap Segment.diagnostic?

@[simp]
theorem diagnosticsOf_cons (ts : List Token) (segment : Segment) :
    diagnosticsOf ((ts, segment) :: pieces) =
      segment.diagnostic?.toList ++ diagnosticsOf pieces := by
  cases segment with
  | _ => rfl

/-- The statements of pieces, in their order. -/
def statementsOf (pieces : List (List Token × Segment)) : Program :=
  (pieces.map Prod.snd).filterMap Segment.statement?

/-- The tokens of pieces, in their order. -/
def tokensOf (pieces : List (List Token × Segment)) : List Token :=
  pieces.flatMap Prod.fst

namespace Cut

theorem tokens_eq (h : Cut tokens pieces rest) : tokens = rest.prepend (tokensOf pieces) := by
  induction h with
  | done => rfl
  | @piece middle rest ts segment pieces _ _ _ _ ih =>
      rw [ih, prepend_prepend]
      rfl

theorem kind_ne (h : Cut tokens pieces rest) : ∀ t ∈ tokensOf pieces, t.kind ≠ .eof := by
  induction h with
  | done => exact nofun
  | piece _ hts _ _ ih => exact List.forall_mem_append.mpr ⟨hts, ih⟩

theorem kind_eq (h : Cut tokens pieces rest) : rest.kind = .eof := by
  induction h with
  | done heof => exact heof
  | piece _ _ _ _ ih => exact ih

/-- There are no pieces behind the end marker. -/
theorem eq_nil (h : Cut tokens pieces rest) (hkind : tokens.kind = .eof) : pieces = [] := by
  cases h with
  | done => rfl
  | @piece _ _ ts _ _ hne hts =>
      cases ts with
      | nil => exact absurd rfl hne
      | cons t ts => exact absurd hkind (hts t List.mem_cons_self)

/-- Every diagnostic but the last stands for a semicolon, with which its piece ends. -/
theorem length_diagnosticsOf_le (h : Cut tokens pieces rest) :
    (diagnosticsOf pieces).length ≤ 1 + (tokensOf pieces).countP (·.kind = .semicolon) := by
  induction h with
  | done => exact Nat.zero_le _
  | @piece middle rest ts segment pieces _ _ hspans hcut ih =>
      have hcount : (tokensOf ((ts, segment) :: pieces)).countP (·.kind = .semicolon) =
          ts.countP (·.kind = .semicolon) + (tokensOf pieces).countP (·.kind = .semicolon) :=
        List.countP_append
      rw [diagnosticsOf_cons, List.length_append, hcount]
      cases segment with
      | separator =>
          simp only [Segment.diagnostic?, Option.toList_none, List.length_nil]
          omega
      | statement s =>
          simp only [Segment.diagnostic?, Option.toList_none, List.length_nil]
          omega
      | abandoned d =>
          simp only [Segment.diagnostic?, Option.toList_some, List.length_singleton]
          rcases hspans.2.2 with ⟨us, t, rfl, ht⟩ | heof
          · have hlast : (us ++ [t]).countP (·.kind = .semicolon) =
                us.countP (·.kind = .semicolon) + 1 := by
              simp [ht]
            omega
          · rw [hcut.eq_nil heof]
            exact Nat.le_add_right _ _

/-- The diagnostics are located at tokens that stand one behind the other. -/
theorem exists_places (h : Cut tokens pieces rest) :
    ∃ places : List Nat, places.Pairwise (· < ·) ∧
      List.Forall₂ (fun d place => ∃ t, tokens.toList[place]? = some t ∧ d.IsAt t)
        (diagnosticsOf pieces) places := by
  induction h with
  | done => exact ⟨[], .nil, .nil⟩
  | @piece middle rest ts segment pieces _ _ hspans hcut ih =>
      obtain ⟨places, hplaces, hlocated⟩ := ih
      -- The places in what follows are counted from the start of this piece.
      have hshifted : List.Forall₂
          (fun d place => ∃ t, (middle.prepend ts).toList[place]? = some t ∧ d.IsAt t)
          (diagnosticsOf pieces) (places.map (ts.length + ·)) := by
        rw [List.forall₂_map_right_iff]
        refine hlocated.imp fun d place ⟨t, ht, hat⟩ => ⟨t, ?_, hat⟩
        rw [toList_prepend, List.getElem?_append_right (Nat.le_add_right _ _),
          Nat.add_sub_cancel_left]
        exact ht
      have hincreasing : (places.map (ts.length + ·)).Pairwise (· < ·) := by
        rw [List.pairwise_map]
        exact hplaces.imp fun hlt => Nat.add_lt_add_left hlt _
      rw [diagnosticsOf_cons]
      cases segment with
      | separator => exact ⟨_, hincreasing, hshifted⟩
      | statement s => exact ⟨_, hincreasing, hshifted⟩
      | abandoned d =>
          rcases hspans.2.1 with ⟨t, ht, hat⟩ | ⟨heof, hat⟩
          · obtain ⟨place, hplace⟩ := List.getElem?_of_mem ht
            have hlt := (List.getElem?_eq_some_iff.mp hplace).1
            refine ⟨place :: places.map (ts.length + ·), hincreasing.cons ?_, .cons ?_ hshifted⟩
            · intro later hlater
              obtain ⟨offset, -, rfl⟩ := List.mem_map.mp hlater
              omega
            · rw [toList_prepend, List.getElem?_append_left hlt]
              exact ⟨t, hplace, hat⟩
          · obtain rfl := hcut.eq_nil heof
            refine ⟨[ts.length], List.pairwise_singleton _ _, .cons ⟨_, ?_, hat⟩ .nil⟩
            rw [toList_prepend, List.getElem?_append_right (Nat.le_refl _), Nat.sub_self]
            exact getElem?_toList_zero middle

end Cut

/-- Reading a program cuts its tokens into pieces up to the first end marker and stops there. The
statements and the diagnostics are those of the pieces, in their order; the diagnostics are located
at ever later tokens, and all but one stand for a semicolon. Reading on finds nothing more. -/
theorem parseProgram_cut (tokens : Tokens) :
    ∃ pieces rest, Cut tokens pieces rest ∧
      tokens.parseProgram = (⟨statementsOf pieces, diagnosticsOf pieces⟩, rest) ∧
      tokens = rest.prepend (tokensOf pieces) ∧ (∀ t ∈ tokensOf pieces, t.kind ≠ .eof) ∧
      rest.kind = .eof ∧
      (∃ places : List Nat, places.Pairwise (· < ·) ∧
        List.Forall₂ (fun d place => ∃ t, tokens.toList[place]? = some t ∧ d.IsAt t)
          (diagnosticsOf pieces) places) ∧
      (diagnosticsOf pieces).length ≤ 1 + (tokensOf pieces).countP (·.kind = .semicolon) ∧
      rest.parseProgram = (⟨[], []⟩, rest) := by
  obtain ⟨segments, rest, hsegmented⟩ := tokens.exists_segmented
  obtain ⟨pieces, hcut, rfl⟩ := hsegmented.exists_cut
  have hagain : Segmented rest [] rest := .done hcut.kind_eq
  exact ⟨pieces, rest, hcut, hsegmented.parseProgram_eq, hcut.tokens_eq, hcut.kind_ne, hcut.kind_eq,
    hcut.exists_places, hcut.length_diagnosticsOf_le, hagain.parseProgram_eq⟩

end Tokens

end Monkey
