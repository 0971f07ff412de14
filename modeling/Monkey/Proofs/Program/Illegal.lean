import Monkey.Proofs.Program.Recovery
import Monkey.Proofs.Token.Layout

/-! # How illegal tokens are reported

No two tokens of a source text stand at one place, so the position of a diagnostic tells which token
it is about. If that token is illegal, the diagnostic says so where an expression may start; where a
certain kind of token has to stand, it only reports that kind as missing (`parse_illegal`,
`parse_illegal_missed`).
-/

namespace Monkey

namespace Tokens

open Rule

variable {tokens middle rest : Tokens} {segments : List Segment} {d : Diagnostic}

theorem IsSuffix.mem_toList (h : rest.IsSuffix tokens) {t : Token} (ht : t ∈ rest.toList) :
    t ∈ tokens.toList := by
  obtain ⟨ts, rfl⟩ := h
  rw [toList_prepend]
  exact List.mem_append_right ts ht

theorem current_mem_toList (tokens : Tokens) : tokens.current ∈ tokens.toList :=
  List.mem_of_getElem? tokens.getElem?_toList_zero

/-- A statement is rejected for one of the tokens from its first on. -/
theorem exists_blamed_of_topStatement
    (houtcome : tokens.topStatement.outcome tokens = (.error d, middle)) :
    ∃ t ∈ tokens.toList, d.Blames t := by
  obtain ⟨ts, htokens, -, herror⟩ := tokens.careful_topStatement tokens
  rw [houtcome] at htokens herror
  obtain ⟨t, ht, hblames⟩ := herror d rfl
  refine ⟨t, ?_, hblames⟩
  rw [htokens, toList_prepend]
  rcases List.mem_append.mp ht with hread | hnext
  · exact List.mem_append_left _ hread
  · rw [List.mem_singleton.mp hnext]
    exact List.mem_append_right ts middle.current_mem_toList

theorem Segmented.exists_blamed (h : Segmented tokens segments rest)
    (hd : d ∈ segments.filterMap Segment.diagnostic?) : ∃ t ∈ tokens.toList, d.Blames t := by
  induction h with
  | done => cases hd
  | separator _ _ ih =>
      obtain ⟨t, ht, hblames⟩ := ih hd
      exact ⟨t, (isSuffix_advance _).mem_toList ht, hblames⟩
  | statement _ _ houtcome _ ih =>
      obtain ⟨t, ht, hblames⟩ := ih hd
      exact ⟨t, (isSuffix_of_topStatement houtcome).mem_toList ht, hblames⟩
  | abandoned _ _ houtcome _ ih =>
      rcases List.mem_cons.mp hd with rfl | hlater
      · exact exists_blamed_of_topStatement houtcome
      · obtain ⟨t, ht, hblames⟩ := ih hlater
        have hsuffix := (isSuffix_synchronize _).trans (isSuffix_of_topStatement houtcome)
        exact ⟨t, hsuffix.mem_toList ht, hblames⟩

end Tokens

/-- Every diagnostic blames a token of the source text. -/
theorem exists_blamed_of_parse {source : String} {d : Diagnostic}
    (hd : d ∈ (parse source).diagnostics) :
    ∃ t ∈ (Token.tokenize source).toList, d.Blames t := by
  obtain ⟨segments, rest, hsegmented⟩ := (Token.tokenize source).exists_segmented
  rw [parse, hsegmented.parseProgram_eq] at hd
  exact hsegmented.exists_blamed hd

/-- A diagnostic located at an illegal token calls it illegal, with its text, or misses a token of a
kind that is required there. What is called illegal is an illegal token of that text. -/
theorem parse_illegal (source : String) :
    (∀ d ∈ (parse source).diagnostics, ∀ t ∈ (Token.tokenize source).toList,
      t.kind = .illegal → d.position = t.position →
        d.cause = .illegal t.literal ∨
          ∃ expected ∈ Diagnostic.requiredKinds, d.cause = .unexpected expected .illegal) ∧
      ∀ d ∈ (parse source).diagnostics, ∀ literal, d.cause = .illegal literal →
        ∃ t ∈ (Token.tokenize source).toList,
          t.kind = .illegal ∧ t.literal = literal ∧ d.position = t.position := by
  constructor
  · intro d hd t ht hillegal hposition
    obtain ⟨u, hu, hat, -, hblames⟩ := exists_blamed_of_parse hd
    obtain rfl := Token.eq_of_position_eq ht hu (hposition.symm.trans hat)
    exact hblames hillegal
  · intro d hd literal hcause
    obtain ⟨t, ht, hposition, hfits, -⟩ := exists_blamed_of_parse hd
    rw [hcause] at hfits
    exact ⟨t, ht, hfits.1, hfits.2, hposition⟩

/-- An illegal token where a statement starts, and one where a name has to stand. -/
def strayMarks : String := "#; let @ = 1"

theorem parse_illegal_strayMarks :
    (parse strayMarks).diagnostics =
        [⟨.illegal "#", ⟨1, 1⟩⟩, ⟨.unexpected .ident .illegal, ⟨1, 8⟩⟩] ∧
      (∃ t ∈ (Token.tokenize strayMarks).toList,
        t.kind = .illegal ∧ t.literal = "#" ∧ (⟨1, 1⟩ : Position) = t.position) ∧
      ∃ expected ∈ Diagnostic.requiredKinds,
        Diagnostic.Cause.unexpected .ident .illegal = .unexpected expected .illegal := by
  have hdiagnostics : (parse strayMarks).diagnostics =
      [⟨.illegal "#", ⟨1, 1⟩⟩, ⟨.unexpected .ident .illegal, ⟨1, 8⟩⟩] := by decide +kernel
  have hname : ⟨.illegal, "@", ⟨1, 8⟩⟩ ∈ (Token.tokenize strayMarks).toList := by decide +kernel
  have hfirst : ⟨.illegal "#", ⟨1, 1⟩⟩ ∈ (parse strayMarks).diagnostics := by
    rw [hdiagnostics]
    exact List.mem_cons_self
  have hsecond : ⟨.unexpected .ident .illegal, ⟨1, 8⟩⟩ ∈ (parse strayMarks).diagnostics := by
    rw [hdiagnostics]
    exact List.mem_cons_of_mem _ List.mem_cons_self
  refine ⟨hdiagnostics, (parse_illegal strayMarks).2 _ hfirst "#" rfl, ?_⟩
  exact ((parse_illegal strayMarks).1 _ hsecond _ hname rfl rfl).resolve_left nofun

/-- In none of these sources is the illegal token called so: it stands where a name, `=`, a
parenthesis, a closing bracket or an opening brace has to stand. -/
theorem parse_illegal_missed :
    ¬ ∃ source ∈ ["let @ = 1", "let x & 1", "if |", "f(1 @)", "[1 \"open", "fn(x) @"],
      ∀ d ∈ (parse source).diagnostics, ∀ t ∈ (Token.tokenize source).toList,
        t.kind = .illegal → d.position = t.position → d.cause = .illegal t.literal := by
  decide +kernel

end Monkey
