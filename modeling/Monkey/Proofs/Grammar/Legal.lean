import Monkey.Proofs.Grammar.Acceptance
import Monkey.Proofs.Token.Concatenation

/-! # Derivations have legal tokens only

Every token of a derivation has a kind that the grammar names, and no rule names the illegal kind.
So a text that is read without a diagnostic has no illegal token, and in particular no open string.
-/

namespace Monkey

namespace Grammar

/-- None of the tokens is illegal. -/
def Legal (ts : List Token) : Prop :=
  ∀ t ∈ ts, t.kind ≠ .illegal

@[simp]
theorem legal_nil : Legal [] := nofun

@[simp]
theorem legal_cons {t : Token} {ts : List Token} :
    Legal (t :: ts) ↔ t.kind ≠ .illegal ∧ Legal ts :=
  List.forall_mem_cons

@[simp]
theorem legal_append {ts us : List Token} : Legal (ts ++ us) ↔ Legal ts ∧ Legal us :=
  List.forall_mem_append

/-- The operators of the strata are legal. -/
def LegalStrata (loose : List Stratum) : Prop :=
  ∀ ops ∈ loose, ∀ entry ∈ ops, entry.1 ≠ .illegal

theorem legalStrata_strata : LegalStrata strata := by
  unfold LegalStrata
  decide

theorem Leaf.legal {t : Token} {e : Expr} (h : Leaf t e) : Legal [t] := by
  cases h with
  | ident h | int h | float h | string h | trueWord h | falseWord h => simp [h]

theorem Names.legal {ts : List Token} {names : List String} (h : Names ts names) : Legal ts := by
  induction h with
  | last h => simp [h]
  | cons h hcomma _ ih => simp [h, hcomma, ih]

theorem Params.legal {ts : List Token} {params : List String} (h : Params ts params) :
    Legal ts := by
  cases h with
  | nil => exact legal_nil
  | names h => exact h.legal

mutual

theorem Chain.legal {loose : List Stratum} {ts : List Token} {e : Expr} :
    Chain loose ts e → LegalStrata loose → Legal ts
  | .operand h, _ => h.legal
  | .tighter h, hloose => h.legal (List.forall_mem_cons.mp hloose).2
  | .binary hl hop hr, hloose => by
      obtain ⟨hops, hrest⟩ := List.forall_mem_cons.mp hloose
      simp [hl.legal hloose, hr.legal hrest, hops _ hop]

theorem Unary.legal {ts : List Token} {e : Expr} : Unary ts e → Legal ts
  | .sign hsign h => by
      have hsigns : ∀ entry ∈ signs, entry.1 ≠ .illegal := by decide
      simp [hsigns _ hsign, h.legal]
  | .suffixed h => h.legal

theorem Suffixed.legal {ts : List Token} {e : Expr} : Suffixed ts e → Legal ts
  | .primary h => h.legal
  | .call h hopening hargs hclosing => by simp [h.legal, hargs.legal, hopening, hclosing]
  | .index h hopening hi hclosing => by
      simp [h.legal, hi.legal legalStrata_strata, hopening, hclosing]

theorem Primary.legal {ts : List Token} {e : Expr} : Primary ts e → Legal ts
  | .leaf h => h.legal
  | .group hopening h hclosing => by simp [h.legal legalStrata_strata, hopening, hclosing]
  | .array hopening h hclosing => by simp [h.legal, hopening, hclosing]
  | .conditional hword hc hbody => by simp [hc.legal, hbody.legal, hword]
  | .alternative hword hc hbody helse halternative => by
      simp [hc.legal, hbody.legal, halternative.legal, hword, helse]
  | .loop hword hc hbody => by simp [hc.legal, hbody.legal, hword]
  | .function hword hopening hparams hclosing hbody => by
      simp [hparams.legal, hbody.legal, hword, hopening, hclosing]

theorem Condition.legal {ts : List Token} {e : Expr} : Condition ts e → Legal ts
  | .mk hopening h hclosing => by simp [h.legal legalStrata_strata, hopening, hclosing]

theorem Args.legal {ts : List Token} {es : List Expr} : Args ts es → Legal ts
  | .nil => legal_nil
  | .items h => h.legal

theorem Items.legal {ts : List Token} {es : List Expr} : Items ts es → Legal ts
  | .last h => h.legal legalStrata_strata
  | .cons h hcomma hes => by simp [h.legal legalStrata_strata, hes.legal, hcomma]

theorem Block.legal {ts : List Token} {body : List Stmt} : Block ts body → Legal ts
  | .mk hopening h hclosing => by simp [h.legal, hopening, hclosing]

theorem Statement.legal {ts : List Token} {s : Stmt} : Statement ts s → Legal ts
  | .bind hword hname hassign h => by
      simp [h.legal legalStrata_strata, hword, hname, hassign]
  | .ret hword h => by simp [h.legal legalStrata_strata, hword]
  | .expr h => h.legal legalStrata_strata
  | .block h => h.legal

theorem Statements.legal {ts : List Token} {body : List Stmt} : Statements ts body → Legal ts
  | .nil => legal_nil
  | .separator ht h => by simp [ht, h.legal]
  | .closed hs ht h => by simp [hs.legal, h.legal, ht]
  | .bare hs _ h => by simp [hs.legal, h.legal]

end

end Grammar

/-- A text that is read without a diagnostic has no open string. -/
theorem not_unterminated_of_accepted {source : String} (haccept : (parse source).diagnostics = []) :
    ∀ t ∈ (Token.tokenize source).front, ¬ t.Unterminated := by
  obtain ⟨segments, rest, hsegmented⟩ := (Token.tokenize source).exists_segmented
  rw [parse, hsegmented.parseProgram_eq] at haccept
  obtain ⟨ts, htokens, hstatements⟩ := Grammar.statements_of_segmented hsegmented haccept
  have hsingle : ∀ t ∈ rest.front, t.kind ≠ .eof := by
    intro t ht
    exact (Token.lexical_of_mem_tokenize source t (by simp [htokens, ht])).kind_ne
  rw [htokens, Tokens.front_prepend, Tokens.front_eq_nil_of_eof hsingle hsegmented.kind_eq,
    List.append_nil]
  exact fun t ht hopen => hstatements.legal t ht hopen.1

end Monkey
