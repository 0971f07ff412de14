import Monkey.Proofs.Grammar
import Monkey.Proofs.Number
import Monkey.Proofs.Program.Segments
import Monkey.Proofs.Token

/-! # Trees that can be written

A tree can be written when each of its leaves can: names are words that are not reserved, numbers
are finite and not negative, and no text holds a quote. Tokens of a source text derive no others, so
every program that is read can be written, whatever else the source text held.
-/

namespace Monkey

mutual

/-- Every leaf of the expression has a literal. -/
def Expr.Spellable : Expr → Prop
  | .ident name => Token.IsName name
  | .int value => 0 ≤ value.toInt
  | .float value => Number.isNegative value = false ∧ Number.isFinite value = true
  | .bool _ => True
  | .string value => '"' ∉ value.toList
  | .array elements => SpellableExprs elements
  | .unary _ operand => operand.Spellable
  | .binary _ left right => left.Spellable ∧ right.Spellable
  | .index collection index => collection.Spellable ∧ index.Spellable
  | .conditional condition consequence alternative =>
    condition.Spellable ∧ SpellableStmts consequence ∧ SpellableAlternative alternative
  | .loop condition body => condition.Spellable ∧ SpellableStmts body
  | .function params body => (∀ name ∈ params, Token.IsName name) ∧ SpellableStmts body
  | .call callee args => callee.Spellable ∧ SpellableExprs args

/-- Every leaf of the statement has a literal. -/
def Stmt.Spellable : Stmt → Prop
  | .bind name value => Token.IsName name ∧ value.Spellable
  | .ret value => value.Spellable
  | .expr value => value.Spellable
  | .block body => SpellableStmts body

def SpellableExprs : List Expr → Prop
  | [] => True
  | first :: rest => first.Spellable ∧ SpellableExprs rest

def SpellableStmts : List Stmt → Prop
  | [] => True
  | first :: rest => first.Spellable ∧ SpellableStmts rest

def SpellableAlternative : Option (List Stmt) → Prop
  | none => True
  | some body => SpellableStmts body

end

namespace Grammar

theorem Leaf.spellable {t : Token} {e : Expr} (h : Leaf t e) (ht : t.Lexical) : e.Spellable := by
  cases h with
  | ident hkind => exact ht.isName hkind
  | int hkind hread =>
      obtain ⟨hne, hdigits⟩ := ht.isNumeral hkind
      rw [← String.ofList_toList (s := t.literal)] at hread
      exact Number.toInt_nonneg_of_readInteger? hne hdigits hread
  | float hkind hread hfinite =>
      obtain ⟨whole, fraction, hpointed⟩ := ht.pointed hkind
      rw [← String.ofList_toList (s := t.literal)] at hread
      exact ⟨Number.isNegative_of_readFloat? hpointed hread, hfinite⟩
  | string hkind => exact ht.unquoted hkind
  | trueWord => exact trivial
  | falseWord => exact trivial

theorem Names.isName {ts : List Token} {names : List String} (h : Names ts names)
    (hts : ∀ t ∈ ts, t.Lexical) : ∀ name ∈ names, Token.IsName name := by
  induction h with
  | last hkind => simpa using (hts _ (by simp)).isName hkind
  | cons hkind _ _ ih =>
      rw [List.forall_mem_cons, List.forall_mem_cons] at hts
      exact List.forall_mem_cons.mpr ⟨hts.1.isName hkind, ih hts.2.2⟩

theorem Params.isName {ts : List Token} {params : List String} (h : Params ts params)
    (hts : ∀ t ∈ ts, t.Lexical) : ∀ name ∈ params, Token.IsName name := by
  cases h with
  | nil => simp
  | names h => exact h.isName hts

mutual

theorem Chain.spellable {loose : List Stratum} {ts : List Token} {e : Expr} :
    Chain loose ts e → (∀ t ∈ ts, t.Lexical) → e.Spellable
  | .operand h, hts => h.spellable hts
  | .tighter h, hts => h.spellable hts
  | .binary hl _ hr, hts => by
      rw [List.forall_mem_append, List.forall_mem_cons] at hts
      exact ⟨hl.spellable hts.1, hr.spellable hts.2.2⟩

theorem Unary.spellable {ts : List Token} {e : Expr} :
    Unary ts e → (∀ t ∈ ts, t.Lexical) → e.Spellable
  | .sign _ h, hts => h.spellable (List.forall_mem_cons.mp hts).2
  | .suffixed h, hts => h.spellable hts

theorem Suffixed.spellable {ts : List Token} {e : Expr} :
    Suffixed ts e → (∀ t ∈ ts, t.Lexical) → e.Spellable
  | .primary h, hts => h.spellable hts
  | .call h _ hargs _, hts => by
      rw [List.forall_mem_append, List.forall_mem_cons, List.forall_mem_append] at hts
      exact ⟨h.spellable hts.1, hargs.spellable hts.2.2.1⟩
  | .index h _ hi _, hts => by
      rw [List.forall_mem_append, List.forall_mem_cons, List.forall_mem_append] at hts
      exact ⟨h.spellable hts.1, hi.spellable hts.2.2.1⟩

theorem Primary.spellable {ts : List Token} {e : Expr} :
    Primary ts e → (∀ t ∈ ts, t.Lexical) → e.Spellable
  | .leaf h, hts => h.spellable (hts _ (by simp))
  | .group _ h _, hts => by
      rw [List.forall_mem_cons, List.forall_mem_append] at hts
      exact h.spellable hts.2.1
  | .array _ h _, hts => by
      rw [List.forall_mem_cons, List.forall_mem_append] at hts
      exact h.spellable hts.2.1
  | .conditional _ hc hbody, hts => by
      rw [List.forall_mem_cons, List.forall_mem_append] at hts
      exact ⟨hc.spellable hts.2.1, hbody.spellable hts.2.2, trivial⟩
  | .alternative _ hc hbody _ halternative, hts => by
      rw [List.forall_mem_cons, List.forall_mem_append, List.forall_mem_append,
        List.forall_mem_cons] at hts
      exact ⟨hc.spellable hts.2.1, hbody.spellable hts.2.2.1, halternative.spellable hts.2.2.2.2⟩
  | .loop _ hc hbody, hts => by
      rw [List.forall_mem_cons, List.forall_mem_append] at hts
      exact ⟨hc.spellable hts.2.1, hbody.spellable hts.2.2⟩
  | .function _ _ hparams _ hbody, hts => by
      rw [List.forall_mem_cons, List.forall_mem_cons, List.forall_mem_append,
        List.forall_mem_cons] at hts
      exact ⟨hparams.isName hts.2.2.1, hbody.spellable hts.2.2.2.2⟩

theorem Condition.spellable {ts : List Token} {e : Expr} :
    Condition ts e → (∀ t ∈ ts, t.Lexical) → e.Spellable
  | .mk _ h _, hts => by
      rw [List.forall_mem_cons, List.forall_mem_append] at hts
      exact h.spellable hts.2.1

theorem Args.spellable {ts : List Token} {es : List Expr} :
    Args ts es → (∀ t ∈ ts, t.Lexical) → SpellableExprs es
  | .nil, _ => trivial
  | .items h, hts => h.spellable hts

theorem Items.spellable {ts : List Token} {es : List Expr} :
    Items ts es → (∀ t ∈ ts, t.Lexical) → SpellableExprs es
  | .last h, hts => ⟨h.spellable hts, trivial⟩
  | .cons h _ hes, hts => by
      rw [List.forall_mem_append, List.forall_mem_cons] at hts
      exact ⟨h.spellable hts.1, hes.spellable hts.2.2⟩

theorem Block.spellable {ts : List Token} {body : List Stmt} :
    Block ts body → (∀ t ∈ ts, t.Lexical) → SpellableStmts body
  | .mk _ h _, hts => by
      rw [List.forall_mem_cons, List.forall_mem_append] at hts
      exact h.spellable hts.2.1

theorem Statement.spellable {ts : List Token} {s : Stmt} :
    Statement ts s → (∀ t ∈ ts, t.Lexical) → s.Spellable
  | .bind _ hname _ h, hts => by
      rw [List.forall_mem_cons, List.forall_mem_cons, List.forall_mem_cons] at hts
      exact ⟨hts.2.1.isName hname, h.spellable hts.2.2.2⟩
  | .ret _ h, hts => h.spellable (List.forall_mem_cons.mp hts).2
  | .expr h, hts => h.spellable hts
  | .block h, hts => h.spellable hts

theorem Statements.spellable {ts : List Token} {body : List Stmt} :
    Statements ts body → (∀ t ∈ ts, t.Lexical) → SpellableStmts body
  | .nil, _ => trivial
  | .separator _ h, hts => h.spellable (List.forall_mem_cons.mp hts).2
  | .closed hs _ h, hts => by
      rw [List.forall_mem_append, List.forall_mem_cons] at hts
      exact ⟨hs.spellable hts.1, h.spellable hts.2.2⟩
  | .bare hs _ h, hts => by
      rw [List.forall_mem_append] at hts
      exact ⟨hs.spellable hts.1, h.spellable hts.2⟩

end

end Grammar

/-- The statements of any segments can be written, those after an abandoned segment too. -/
theorem Tokens.Segmented.spellable {tokens rest : Tokens} {segments : List Segment}
    (h : Tokens.Segmented tokens segments rest) (htokens : ∀ t ∈ tokens.front, t.Lexical) :
    SpellableStmts (segments.filterMap Segment.statement?) := by
  induction h with
  | done => exact trivial
  | separator _ _ ih =>
      apply ih
      exact fun t ht => htokens t ((Tokens.isSuffix_advance _).mem ht)
  | statement _ _ houtcome _ ih =>
      obtain ⟨ts, middle, rfl, hs, -, hmiddle⟩ := Tokens.topStatement_sound houtcome
      rw [Tokens.front_prepend, List.forall_mem_append] at htokens
      refine ⟨hs.spellable htokens.1, ih fun t ht => htokens.2 t ?_⟩
      rcases hmiddle with rfl | ⟨semicolon, -, rfl⟩
      · exact ht
      · exact List.mem_cons_of_mem _ ht
  | @abandoned tokens middle _ _ _ _ _ houtcome _ ih =>
      apply ih
      have hsuffix := Tokens.isSuffix_of_topStatement houtcome
      exact fun t ht => htokens t ((middle.isSuffix_synchronize.trans hsuffix).mem ht)

/-- Every program that is read can be written. -/
theorem spellable_parse (source : String) : SpellableStmts (parse source).program := by
  obtain ⟨segments, rest, hsegmented⟩ := (Token.tokenize source).exists_segmented
  unfold parse
  rw [hsegmented.parseProgram_eq]
  exact hsegmented.spellable (Token.lexical_of_mem_tokenize source)

end Monkey
