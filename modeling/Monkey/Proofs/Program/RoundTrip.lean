import Monkey.Program.Same
import Monkey.Proofs.Grammar.Acceptance
import Monkey.Proofs.Program.Spellable
import Monkey.Proofs.Token.Spelling

/-! # Canonical text reads back

The canonical text of a tree that can be written derives that tree. The induction follows the tree
and proves of every expression that its text is a suffixed expression, in front of any character
that ends words and numbers, and that its text as a condition is one.
-/

namespace Monkey

open Token Grammar

variable {cs rest : List Char} {P : List Token → Prop} {e : Expr}

/-! ## Marks and reserved words -/

/-- Text with a mark in front. -/
theorem Token.Spells.mark {c : Char} {kind : Token.Kind} (hspace : isSpace c = false)
    (hc : Lexeme.atFront c (cs ++ rest) = ⟨kind, [c]⟩)
    (h : ∀ t : Token, t.kind = kind → Spells cs rest fun ts => P (t :: ts)) :
    Spells (c :: cs) rest P :=
  .token ⟨c, [], rfl, hspace, hc⟩ fun t ht _ => h t ht

theorem leads_reserved {word : String} {kind : Token.Kind} (hword : (word, kind) ∈ Kind.reserved)
    (hrest : Ends rest) : Leads ⟨kind, word.toList⟩ rest := by
  have hwords : ∀ x ∈ Kind.reserved, x.1.toList.head?.any Text.isAlphabetic = true ∧
      x.1.toList.tail.all Text.isAlphanumeric = true ∧ Kind.ofWord x.1 = x.2 := by
    decide
  obtain ⟨hhead, htail, hkind⟩ := hwords _ hword
  obtain ⟨c, hc, halphabetic⟩ := (Option.any_eq_true _ _).mp hhead
  obtain ⟨ds, htext⟩ := List.head?_eq_some_iff.mp hc
  have hds : ∀ d ∈ ds, Text.isAlphanumeric d = true := by
    rw [htext, List.tail_cons] at htail
    exact List.all_eq_true.mp htail
  have hleads := leads_word ⟨c, ds, htext, halphabetic, hds⟩ hrest
  rw [String.ofList_toList, hkind] at hleads
  exact hleads

/-- Text with a reserved word in front. -/
theorem Token.Spells.word {word : String} (kind : Token.Kind)
    (hword : (word, kind) ∈ Kind.reserved) (hrest : Ends (cs ++ rest))
    (h : ∀ t : Token, t.kind = kind → Spells cs rest fun ts => P (t :: ts)) :
    Spells (word.toList ++ cs) rest P :=
  .token (leads_reserved hword hrest) fun t ht _ => h t ht

/-! ## Expressions -/

/-- The text of the expression is read as that expression. -/
structure Expr.Spelled (e : Expr) : Prop where
  first : ∃ c cs, e.render.toList = c :: cs ∧ c ≠ '='
  opens : ∃ cs, (e.enclose e.render).toList = '(' :: cs
  suffixed : ∀ rest, Ends rest → Spells e.render.toList rest fun ts => Suffixed ts e
  condition : ∀ rest, Ends rest → Spells (e.enclose e.render).toList rest fun ts => Condition ts e

theorem Grammar.Suffixed.chain {ts : List Token} (h : Suffixed ts e) : Chain strata ts e :=
  Unary.chain (m := 0) (.suffixed h)

theorem Grammar.Condition.suffixed {ts : List Token} (h : Condition ts e) : Suffixed ts e := by
  cases h with
  | mk hopen h hclose => exact .primary (.group hopen h hclose)

/-- Any operator may stand between suffixed expressions. -/
theorem Grammar.Suffixed.chain_binary {ls rs : List Token} {t : Token} {op : BinaryOp} {l r : Expr}
    (hl : Suffixed ls l) (hop : Suffix.ofKind? t.kind = some (.binary op)) (hr : Suffixed rs r) :
    Chain strata (ls ++ t :: rs) (.binary op l r) := by
  obtain ⟨ops, hdrop, hmem⟩ := exists_stratum hop
  have hleft : Chain (strata.drop (op.precedence.level - 1)) ls l := (Unary.suffixed hl).chain
  have hright : Chain (strata.drop op.precedence.level) rs r := (Unary.suffixed hr).chain
  rw [hdrop] at hleft
  have hchain := Chain.binary hleft hmem hright
  rw [← hdrop] at hchain
  exact hchain.loosen (m := 0) (Nat.zero_le _)

/-- As a condition, an expression without parentheses of its own is put in some. -/
theorem Expr.Spelled.of_suffixed (hopen : e.isEnclosed = false)
    (hfirst : ∃ c cs, e.render.toList = c :: cs ∧ c ≠ '=')
    (hsuffixed : ∀ rest, Ends rest → Spells e.render.toList rest fun ts => Suffixed ts e) :
    e.Spelled := by
  have htext : (e.enclose e.render).toList = '(' :: (e.render.toList ++ [')']) := by
    simp [Expr.enclose, hopen]
  refine ⟨hfirst, ⟨_, htext⟩, hsuffixed, fun rest _ => ?_⟩
  rw [htext]
  apply Spells.mark rfl rfl
  intro opening hopening
  apply Spells.append (hsuffixed _ (ends_cons (by decide) (by decide)))
  intro ts hts
  apply Spells.mark rfl rfl
  intro closing hclosing
  exact .nil (.mk hopening hts.chain hclosing)

theorem Expr.Spelled.of_condition (henclosed : e.isEnclosed = true)
    (hopens : ∃ cs, e.render.toList = '(' :: cs)
    (hcondition : ∀ rest, Spells e.render.toList rest fun ts => Condition ts e) : e.Spelled := by
  have htext : e.enclose e.render = e.render := by
    simp [Expr.enclose, henclosed]
  obtain ⟨cs, hcs⟩ := hopens
  refine ⟨⟨'(', cs, hcs, by decide⟩, ⟨cs, by rw [htext, hcs]⟩, ?_, ?_⟩
  · exact fun rest _ => (hcondition rest).mono fun ts hts => hts.suffixed
  · intro rest _
    rw [htext]
    exact hcondition rest

/-- An expression of one token. -/
theorem Expr.Spelled.of_leaf {x : Lexeme} (hrender : e.render.toList = x.text)
    (hopen : e.isEnclosed = false) (hfirst : ∃ c cs, x.text = c :: cs ∧ c ≠ '=')
    (hx : ∀ rest, Ends rest → Leads x rest)
    (hleaf : ∀ t : Token, t.kind = x.kind → t.literal = x.literal → Leaf t e) : e.Spelled := by
  refine .of_suffixed hopen (hrender ▸ hfirst) fun rest hrest => ?_
  rw [hrender, ← List.append_nil x.text]
  apply Spells.token (hx rest hrest)
  intro t hkind hliteral
  exact .nil (.primary (.leaf (hleaf t hkind hliteral)))

theorem ne_eq_of_isAlphanumeric {c : Char} (hc : Text.isAlphanumeric c = true) : c ≠ '=' :=
  ne_of_isAlphanumeric hc (by decide)

theorem spelled_ident {name : String} (h : IsName name) : (Expr.ident name).Spelled := by
  refine .of_leaf (x := ⟨.ident, name.toList⟩) rfl rfl ?_ ?_ ?_
  · obtain ⟨c, ds, htext, hc, -⟩ := h.isWord
    exact ⟨c, ds, htext, ne_eq_of_isAlphanumeric (Text.isAlphanumeric_of_isAlphabetic hc)⟩
  · exact fun rest hrest => leads_name h hrest
  · intro t hkind hliteral
    have hname : t.literal = name := by rw [hliteral]; exact String.ofList_toList
    exact hname ▸ .ident hkind

theorem spelled_int {n : Int64} (h : 0 ≤ n.toInt) : (Expr.int n).Spelled := by
  have hnumeral : IsNumeral (Number.integerText n).toList := by
    rw [Number.toList_integerText h]
    exact ⟨Nat.toDigits_ne_nil, fun c hc => Decimal.isDigit_of_mem_toDigits hc⟩
  refine .of_leaf (x := ⟨.int, (Number.integerText n).toList⟩) rfl rfl ?_ ?_ ?_
  · obtain ⟨c, ds, htext⟩ := List.exists_cons_of_ne_nil hnumeral.1
    have hc := hnumeral.2 c (by simp [htext])
    exact ⟨c, ds, htext, ne_eq_of_isAlphanumeric (isAlphanumeric_of_isDigit hc)⟩
  · exact fun rest hrest => leads_numeral hnumeral hrest
  · intro t hkind hliteral
    have htext : t.literal = Number.integerText n := by rw [hliteral]; exact String.ofList_toList
    exact .int hkind (htext ▸ Number.readInteger?_integerText h)

theorem spelled_float {x : Float} (hx : Number.isNegative x = false)
    (hfinite : Number.isFinite x = true) : (Expr.float x).Spelled := by
  obtain ⟨whole, fraction, hpointed, -⟩ := Number.exists_pointed_floatLiteral hx hfinite
  refine .of_leaf (x := ⟨.float, (floatLiteral x).toList⟩) rfl rfl ?_ ?_ ?_
  · obtain ⟨c, ds, hwhole⟩ := List.exists_cons_of_ne_nil hpointed.whole_ne_nil
    have hc := hpointed.isDigit_whole c (by simp [hwhole])
    refine ⟨c, ds ++ '.' :: fraction, ?_, ne_eq_of_isAlphanumeric (isAlphanumeric_of_isDigit hc)⟩
    rw [hpointed.eq, hwhole, List.cons_append]
  · exact fun rest hrest => leads_pointed hpointed hrest
  · intro t hkind hliteral
    have htext : t.literal = floatLiteral x := by rw [hliteral]; exact String.ofList_toList
    exact .float hkind (htext ▸ Number.readFloat?_floatLiteral hx hfinite) hfinite

theorem spelled_string {value : String} (h : '"' ∉ value.toList) : (Expr.string value).Spelled := by
  have htext : (Expr.string value).render.toList = '"' :: (value.toList ++ ['"']) := by
    change ("\"" ++ value ++ "\"").toList = _
    simp
  refine .of_leaf (x := ⟨.string, '"' :: (value.toList ++ ['"'])⟩) htext rfl
    ⟨_, _, rfl, by decide⟩ (fun rest _ => leads_string h rest) ?_
  intro t hkind hliteral
  have htext : t.literal = value := by rw [hliteral, literal_string, String.ofList_toList]
  exact htext ▸ .string hkind

theorem spelled_bool (value : Bool) : (Expr.bool value).Spelled := by
  cases value with
  | true =>
      exact .of_leaf (x := ⟨.trueWord, "true".toList⟩) rfl rfl
        ⟨'t', _, rfl, by decide⟩ (fun rest hrest => leads_reserved (by decide) hrest)
        fun t hkind _ => .trueWord hkind
  | false =>
      exact .of_leaf (x := ⟨.falseWord, "false".toList⟩) rfl rfl
        ⟨'f', _, rfl, by decide⟩ (fun rest hrest => leads_reserved (by decide) hrest)
        fun t hkind _ => .falseWord hkind

/-! ## Lists and blocks -/

/-- The text of the list is read as that list. -/
def SpelledArgs (es : List Expr) : Prop :=
  ∀ rest, Ends rest → Spells (renderArgs es).toList rest fun ts => Args ts es

theorem Grammar.Args.items_of_ne_nil {ts : List Token} {es : List Expr} (h : Args ts es)
    (hes : es ≠ []) :
    Items ts es := by
  cases h with
  | nil => exact absurd rfl hes
  | items h => exact h

theorem spelledArgs_nil : SpelledArgs [] :=
  fun _ _ => .nil .nil

theorem spelledArgs_cons {es : List Expr} (h : e.Spelled) (hes : SpelledArgs es) :
    SpelledArgs (e :: es) := by
  intro rest hrest
  cases es with
  | nil =>
      change Spells e.render.toList rest _
      exact (h.suffixed rest hrest).mono fun ts hts => .items (.last hts.chain)
  | cons first more =>
      have htext : (renderArgs (e :: first :: more)).toList =
          e.render.toList ++ ',' :: (renderArgs (first :: more)).toList := by
        change (e.render ++ "," ++ renderArgs (first :: more)).toList = _
        simp
      rw [htext]
      apply Spells.append (h.suffixed _ (ends_cons (by decide) (by decide)))
      intro ts hts
      apply Spells.mark rfl rfl
      intro comma hcomma
      apply (hes rest hrest).mono
      intro us hus
      exact .items (.cons hts.chain hcomma (hus.items_of_ne_nil (List.cons_ne_nil _ _)))

/-- The names of parameters are read as those parameters, whatever blanks follow the commas. -/
theorem spells_params {params : List String} {separator : String} {gap : List Char}
    (hseparator : separator.toList = ',' :: gap) (hgap : ∀ c ∈ gap, isSpace c = true)
    (h : ∀ name ∈ params, IsName name) (hrest : Ends rest) :
    Spells (separator.intercalate params).toList rest fun ts => Params ts params := by
  induction params with
  | nil => exact .nil .nil
  | cons name params ih =>
      obtain ⟨hname, hparams⟩ := List.forall_mem_cons.mp h
      cases params with
      | nil =>
          have htext : (separator.intercalate [name]).toList = name.toList ++ [] := by simp
          rw [htext]
          have hend : Ends ([] ++ rest) := hrest
          apply Spells.token (leads_name hname hend)
          intro t hkind hliteral
          have heq : t.literal = name := by rw [hliteral]; exact String.ofList_toList
          exact .nil (.names (heq ▸ .last hkind))
      | cons second more =>
          have htext : (separator.intercalate (name :: second :: more)).toList =
              name.toList ++ ',' :: (gap ++ (separator.intercalate (second :: more)).toList) := by
            simp [String.intercalate_cons_cons, hseparator]
          rw [htext]
          apply Spells.token (leads_name hname (ends_cons (by decide) (by decide)))
          intro t hkind hliteral
          apply Spells.mark rfl rfl
          intro comma hcomma
          apply Spells.spaces hgap
          apply (ih hparams).mono
          intro ts hts
          have heq : t.literal = name := by rw [hliteral]; exact String.ofList_toList
          cases hts with
          | names hts => exact .names (heq ▸ .cons hkind hcomma hts)

/-- The text of the statements is read as those statements. -/
def SpelledStmts (body : List Stmt) : Prop :=
  ∀ rest, Ends rest → Spells (renderStmts body).toList rest fun ts => Statements ts body

theorem braced_eq_cons (body : List Stmt) (text : String) :
    ∃ cs, (braced body text).toList = '{' :: cs := by
  unfold braced
  split
  · exact ⟨['\n', '}'], rfl⟩
  · exact ⟨'\n' :: (text.toList ++ ['\n', '}']), by simp⟩

theorem ends_braced (body : List Stmt) (text : String) :
    Ends ((braced body text).toList ++ rest) := by
  obtain ⟨cs, hcs⟩ := braced_eq_cons body text
  rw [hcs]
  exact ends_cons (by decide) (by decide)

theorem SpelledStmts.braced {body : List Stmt} (h : SpelledStmts body) (rest : List Char) :
    Spells (braced body (renderStmts body)).toList rest fun ts => Grammar.Block ts body := by
  cases body with
  | nil =>
      change Spells ['{', '\n', '}'] rest _
      apply Spells.mark rfl rfl
      intro opening hopening
      apply Spells.space rfl
      apply Spells.mark rfl rfl
      intro closing hclosing
      exact .nil (.mk hopening .nil hclosing)
  | cons s more =>
      have htext : (Monkey.braced (s :: more) (renderStmts (s :: more))).toList =
          '{' :: '\n' :: ((renderStmts (s :: more)).toList ++ ['\n', '}']) := by
        simp [Monkey.braced]
      rw [htext]
      apply Spells.mark rfl rfl
      intro opening hopening
      apply Spells.space rfl
      apply Spells.append (h _ (ends_cons (by decide) (by decide)))
      intro ts hts
      apply Spells.space rfl
      apply Spells.mark rfl rfl
      intro closing hclosing
      exact .nil (.mk hopening hts hclosing)

/-! ## Compound expressions -/

theorem spelled_array {es : List Expr} (h : SpelledArgs es) : (Expr.array es).Spelled := by
  have htext : (Expr.array es).render.toList = '[' :: ((renderArgs es).toList ++ [']']) := by
    change ("[" ++ renderArgs es ++ "]").toList = _
    simp
  refine .of_suffixed rfl ⟨_, _, htext, by decide⟩ fun rest _ => ?_
  rw [htext]
  apply Spells.mark rfl rfl
  intro opening hopening
  apply Spells.append (h _ (ends_cons (by decide) (by decide)))
  intro ts hts
  apply Spells.mark rfl rfl
  intro closing hclosing
  exact .nil (.primary (.array hopening hts hclosing))

theorem spelled_call {args : List Expr} (h : e.Spelled) (hargs : SpelledArgs args) :
    (Expr.call e args).Spelled := by
  have htext : (Expr.call e args).render.toList =
      e.render.toList ++ '(' :: ((renderArgs args).toList ++ [')']) := by
    change (e.render ++ "(" ++ renderArgs args ++ ")").toList = _
    simp
  refine .of_suffixed rfl ?_ fun rest _ => ?_
  · obtain ⟨c, cs, hcs, hc⟩ := h.first
    exact ⟨c, _, by rw [htext, hcs, List.cons_append], hc⟩
  · rw [htext]
    apply Spells.append (h.suffixed _ (ends_cons (by decide) (by decide)))
    intro ts hts
    apply Spells.mark rfl rfl
    intro opening hopening
    apply Spells.append (hargs _ (ends_cons (by decide) (by decide)))
    intro us hus
    apply Spells.mark rfl rfl
    intro closing hclosing
    exact .nil (.call hts hopening hus hclosing)

theorem spelled_index {i : Expr} (h : e.Spelled) (hi : i.Spelled) : (Expr.index e i).Spelled := by
  have htext : (Expr.index e i).render.toList =
      '(' :: (e.render.toList ++ '[' :: (i.render.toList ++ [']', ')'])) := by
    change ("(" ++ e.render ++ "[" ++ i.render ++ "])").toList = _
    simp
  refine .of_condition rfl ⟨_, htext⟩ fun rest => ?_
  rw [htext]
  apply Spells.mark rfl rfl
  intro opening hopening
  apply Spells.append (h.suffixed _ (ends_cons (by decide) (by decide)))
  intro ts hts
  apply Spells.mark rfl rfl
  intro bracket hbracket
  apply Spells.append (hi.suffixed _ (ends_cons (by decide) (by decide)))
  intro us hus
  apply Spells.mark rfl rfl
  intro bracket' hbracket'
  apply Spells.mark rfl rfl
  intro closing hclosing
  have hchain := (Suffixed.index hts hbracket hus.chain hbracket').chain
  have hcondition := Condition.mk hopening hchain hclosing
  exact .nil (by simpa using hcondition)

theorem spelled_unary (op : UnaryOp) (h : e.Spelled) : (Expr.unary op e).Spelled := by
  have htext : (Expr.unary op e).render.toList =
      '(' :: (op.symbol.toList ++ (e.render.toList ++ [')'])) := by
    change ("(" ++ op.symbol ++ e.render ++ ")").toList = _
    simp
  refine .of_condition rfl ⟨_, htext⟩ fun rest => ?_
  rw [htext]
  apply Spells.mark rfl rfl
  intro opening hopening
  have hsign : ∃ kind, (kind, op) ∈ signs ∧
      Leads ⟨kind, op.symbol.toList⟩ (e.render.toList ++ [')'] ++ rest) := by
    cases op with
    | negate => exact ⟨.minus, by decide, '-', [], rfl, rfl, rfl⟩
    | not =>
        obtain ⟨c, cs, hcs, hc⟩ := h.first
        refine ⟨.bang, by decide, '!', [], rfl, rfl, ?_⟩
        rw [hcs]
        simp [Lexeme.atFront, hc, UnaryOp.symbol]
  obtain ⟨kind, hmem, hleads⟩ := hsign
  apply Spells.token hleads
  intro sign hsign _
  apply Spells.append (h.suffixed _ (ends_cons (by decide) (by decide)))
  intro ts hts
  apply Spells.mark rfl rfl
  intro closing hclosing
  rw [← hsign] at hmem
  have hunary := Unary.sign hmem (.suffixed hts)
  exact .nil (.mk hopening (hunary.chain (m := 0)) hclosing)

theorem spelled_binary {r : Expr} (op : BinaryOp) (h : e.Spelled) (hr : r.Spelled) :
    (Expr.binary op e r).Spelled := by
  have htext : (Expr.binary op e r).render.toList = '(' :: (e.render.toList ++
      ' ' :: (op.symbol.toList ++ ' ' :: (r.render.toList ++ [')']))) := by
    change ("(" ++ e.render ++ " " ++ op.symbol ++ " " ++ r.render ++ ")").toList = _
    simp
  refine .of_condition rfl ⟨_, htext⟩ fun rest => ?_
  rw [htext]
  apply Spells.mark rfl rfl
  intro opening hopening
  apply Spells.append (h.suffixed _ (ends_cons (by decide) (by decide)))
  intro ts hts
  apply Spells.space rfl
  obtain ⟨kind, hsuffix, hleads⟩ : ∃ kind, Suffix.ofKind? kind = some (.binary op) ∧
      ∀ cs, Leads ⟨kind, op.symbol.toList⟩ (' ' :: cs) := by
    cases op with
    | add => exact ⟨.plus, rfl, fun _ => ⟨'+', [], rfl, rfl, rfl⟩⟩
    | subtract => exact ⟨.minus, rfl, fun _ => ⟨'-', [], rfl, rfl, rfl⟩⟩
    | multiply => exact ⟨.asterisk, rfl, fun _ => ⟨'*', [], rfl, rfl, rfl⟩⟩
    | divide => exact ⟨.slash, rfl, fun _ => ⟨'/', [], rfl, rfl, rfl⟩⟩
    | less => exact ⟨.lt, rfl, fun _ => ⟨'<', [], rfl, rfl, rfl⟩⟩
    | greater => exact ⟨.gt, rfl, fun _ => ⟨'>', [], rfl, rfl, rfl⟩⟩
    | equal => exact ⟨.eq, rfl, fun _ => ⟨'=', ['='], rfl, rfl, rfl⟩⟩
    | notEqual => exact ⟨.notEq, rfl, fun _ => ⟨'!', ['='], rfl, rfl, rfl⟩⟩
    | and => exact ⟨.and, rfl, fun _ => ⟨'&', ['&'], rfl, rfl, rfl⟩⟩
    | or => exact ⟨.or, rfl, fun _ => ⟨'|', ['|'], rfl, rfl, rfl⟩⟩
  apply Spells.token (hleads _)
  intro sign hsign _
  apply Spells.space rfl
  apply Spells.append (hr.suffixed _ (ends_cons (by decide) (by decide)))
  intro us hus
  apply Spells.mark rfl rfl
  intro closing hclosing
  rw [← hsign] at hsuffix
  have hcondition := Condition.mk hopening (hts.chain_binary hsuffix hus) hclosing
  exact .nil (by simpa using hcondition)

theorem Expr.Spelled.ends (h : e.Spelled) : Ends ((e.enclose e.render).toList ++ rest) := by
  obtain ⟨cs, hcs⟩ := h.opens
  rw [hcs]
  exact ends_cons (by decide) (by decide)

/-- A reserved word, a condition and a block: a loop, or a conditional up to its alternative. -/
theorem spells_guarded {word : String} (kind : Token.Kind) (hword : (word, kind) ∈ Kind.reserved)
    {body : List Stmt} (h : e.Spelled) (hbody : SpelledStmts body) (rest : List Char) :
    Spells (word.toList ++ ((e.enclose e.render).toList ++
      ' ' :: (braced body (renderStmts body)).toList)) rest fun ts =>
        ∃ t cs bs, ts = t :: (cs ++ bs) ∧ t.kind = kind ∧ Condition cs e ∧
          Grammar.Block bs body := by
  apply Spells.word kind hword
  · rw [List.append_assoc]
    exact h.ends
  intro t ht
  apply Spells.append (h.condition _ (ends_cons (by decide) (by decide)))
  intro cs hcs
  apply Spells.space rfl
  apply (hbody.braced rest).mono
  intro bs hbs
  exact ⟨t, cs, bs, rfl, ht, hcs, hbs⟩

theorem spelled_loop {body : List Stmt} (h : e.Spelled) (hbody : SpelledStmts body) :
    (Expr.loop e body).Spelled := by
  have htext : (Expr.loop e body).render.toList = "while".toList ++ ((e.enclose e.render).toList ++
      ' ' :: (braced body (renderStmts body)).toList) := by
    change ("while" ++ e.enclose e.render ++ " " ++ braced body (renderStmts body)).toList = _
    simp
  refine .of_suffixed rfl ⟨'w', _, htext, by decide⟩ fun rest _ => ?_
  rw [htext]
  apply (spells_guarded .whileWord (by decide) h hbody rest).mono
  rintro _ ⟨word, cs, bs, rfl, hword, hcs, hbs⟩
  exact .primary (.loop hword hcs hbs)

theorem spelled_conditional {body : List Stmt} (h : e.Spelled) (hbody : SpelledStmts body) :
    (Expr.conditional e body none).Spelled := by
  have htext : (Expr.conditional e body none).render.toList = "if".toList ++
      ((e.enclose e.render).toList ++ ' ' :: (braced body (renderStmts body)).toList) := by
    change ("if" ++ e.enclose e.render ++ " " ++ braced body (renderStmts body) ++ "").toList = _
    simp
  refine .of_suffixed rfl ⟨'i', _, htext, by decide⟩ fun rest _ => ?_
  rw [htext]
  apply (spells_guarded .ifWord (by decide) h hbody rest).mono
  rintro _ ⟨word, cs, bs, rfl, hword, hcs, hbs⟩
  exact .primary (.conditional hword hcs hbs)

theorem spelled_alternative {body alternative : List Stmt} (h : e.Spelled)
    (hbody : SpelledStmts body) (halternative : SpelledStmts alternative) :
    (Expr.conditional e body (some alternative)).Spelled := by
  have htext : (Expr.conditional e body (some alternative)).render.toList =
      ("if".toList ++ ((e.enclose e.render).toList ++
        ' ' :: (braced body (renderStmts body)).toList)) ++
          ("else".toList ++ (braced alternative (renderStmts alternative)).toList) := by
    change ("if" ++ e.enclose e.render ++ " " ++ braced body (renderStmts body) ++
      ("else" ++ braced alternative (renderStmts alternative))).toList = _
    simp
  refine .of_suffixed rfl ⟨'i', _, htext, by decide⟩ fun rest _ => ?_
  rw [htext]
  apply Spells.append (spells_guarded .ifWord (by decide) h hbody _)
  rintro _ ⟨word, cs, bs, rfl, hword, hcs, hbs⟩
  apply Spells.word .elseWord (by decide) (ends_braced _ _)
  intro elseWord helse
  apply (halternative.braced rest).mono
  intro as has
  simpa using Suffixed.primary (.alternative hword hcs hbs helse has)

/-- The text of a function is read as that function, whatever blanks follow the commas and the
parameters. -/
theorem spells_function {params : List String} {body : List Stmt} {separator : String}
    {gap space : List Char} (hseparator : separator.toList = ',' :: gap)
    (hgap : ∀ c ∈ gap, isSpace c = true) (hspace : ∀ c ∈ space, isSpace c = true)
    (hparams : ∀ name ∈ params, IsName name) (hbody : SpelledStmts body) (rest : List Char) :
    Spells ("fn".toList ++ '(' :: ((separator.intercalate params).toList ++
      ')' :: (space ++ (braced body (renderStmts body)).toList))) rest
      fun ts => Suffixed ts (.function params body) := by
  apply Spells.word .fnWord (by decide) (ends_cons (by decide) (by decide))
  intro word hword
  apply Spells.mark rfl rfl
  intro opening hopening
  apply Spells.append (spells_params hseparator hgap hparams (ends_cons (by decide) (by decide)))
  intro ts hts
  apply Spells.mark rfl rfl
  intro closing hclosing
  apply Spells.spaces hspace
  apply (hbody.braced rest).mono
  intro us hus
  exact .primary (.function hword hopening hts hclosing hus)

theorem spelled_function {params : List String} {body : List Stmt}
    (hparams : ∀ name ∈ params, IsName name) (hbody : SpelledStmts body) :
    (Expr.function params body).Spelled := by
  have htext : (Expr.function params body).render.toList = "fn".toList ++ '(' ::
      ((",".intercalate params).toList ++ ')' :: (braced body (renderStmts body)).toList) := by
    change ("fn(" ++ ",".intercalate params ++ ")" ++ braced body (renderStmts body)).toList = _
    simp
  refine .of_suffixed rfl ⟨'f', _, htext, by decide⟩ fun rest _ => ?_
  rw [htext]
  exact @spells_function _ _ _ [] [] rfl nofun nofun hparams hbody rest

/-! ## Statements -/

/-- The text of the statement is read as that statement. -/
def Stmt.Spelled (s : Stmt) : Prop :=
  ∀ rest, Ends rest → Spells s.render.toList rest fun ts => Statement ts s

theorem spelled_bind {name : String} (hname : IsName name) (h : e.Spelled) :
    (Stmt.bind name e).Spelled := by
  intro rest hrest
  have htext : (Stmt.bind name e).render.toList =
      "let".toList ++ ' ' :: (name.toList ++ ' ' :: '=' :: ' ' :: e.render.toList) := by
    change ("let " ++ name ++ " = " ++ e.render).toList = _
    simp
  rw [htext]
  apply Spells.word .letWord (by decide) (ends_cons (by decide) (by decide))
  intro word hword
  apply Spells.space rfl
  apply Spells.token (leads_name hname (ends_cons (by decide) (by decide)))
  intro t hkind hliteral
  apply Spells.space rfl
  apply Spells.mark rfl rfl
  intro assign hassign
  apply Spells.space rfl
  apply (h.suffixed rest hrest).mono
  intro ts hts
  have heq : t.literal = name := by rw [hliteral]; exact String.ofList_toList
  exact heq ▸ .bind hword hkind hassign hts.chain

theorem spelled_ret (h : e.Spelled) : (Stmt.ret e).Spelled := by
  intro rest hrest
  have htext : (Stmt.ret e).render.toList = "return".toList ++ ' ' :: e.render.toList := by
    change ("return " ++ e.render).toList = _
    simp
  rw [htext]
  apply Spells.word .returnWord (by decide) (ends_cons (by decide) (by decide))
  intro word hword
  apply Spells.space rfl
  apply (h.suffixed rest hrest).mono
  intro ts hts
  exact .ret hword hts.chain

theorem spelled_expr (h : e.Spelled) : (Stmt.expr e).Spelled := by
  intro rest hrest
  change Spells e.render.toList rest _
  exact (h.suffixed rest hrest).mono fun ts hts => .expr hts.chain

theorem spelled_block {body : List Stmt} (h : SpelledStmts body) : (Stmt.block body).Spelled := by
  intro rest _
  change Spells (braced body (renderStmts body)).toList rest _
  exact (h.braced rest).mono fun ts hts => .block hts

theorem spelledStmts_nil : SpelledStmts [] :=
  fun _ _ => .nil .nil

theorem spelledStmts_cons {s : Stmt} {body : List Stmt} (h : s.Spelled)
    (hbody : SpelledStmts body) : SpelledStmts (s :: body) := by
  intro rest hrest
  cases body with
  | nil =>
      change Spells s.render.toList rest _
      apply (h rest hrest).mono
      intro ts hts
      have hdelimited : Delimited s [] := by
        cases s <;> simp [Delimited]
      simpa using Statements.bare hts hdelimited .nil
  | cons first more =>
      have htext : (renderStmts (s :: first :: more)).toList =
          s.render.toList ++ ';' :: '\n' :: (renderStmts (first :: more)).toList := by
        change (s.render ++ ";\n" ++ renderStmts (first :: more)).toList = _
        simp
      rw [htext]
      apply Spells.append (h _ (ends_cons (by decide) (by decide)))
      intro ts hts
      apply Spells.mark rfl rfl
      intro semicolon hsemicolon
      apply Spells.space rfl
      apply (hbody rest hrest).mono
      intro us hus
      exact .closed hts hsemicolon hus

/-! ## All trees -/

mutual

/-- The text of an expression that can be written is read as that expression. -/
theorem Expr.Spellable.spelled : (e : Expr) → e.Spellable → e.Spelled
  | .ident _, h => spelled_ident h
  | .int _, h => spelled_int h
  | .float _, h => spelled_float h.1 h.2
  | .bool value, _ => spelled_bool value
  | .string _, h => spelled_string h
  | .array es, h => spelled_array (SpellableExprs.spelled es h)
  | .unary op e, h => spelled_unary op (Expr.Spellable.spelled e h)
  | .binary op l r, h =>
      spelled_binary op (Expr.Spellable.spelled l h.1) (Expr.Spellable.spelled r h.2)
  | .index e i, h => spelled_index (Expr.Spellable.spelled e h.1) (Expr.Spellable.spelled i h.2)
  | .conditional c body none, h =>
      spelled_conditional (Expr.Spellable.spelled c h.1) (SpellableStmts.spelled body h.2.1)
  | .conditional c body (some alternative), h =>
      spelled_alternative (Expr.Spellable.spelled c h.1) (SpellableStmts.spelled body h.2.1)
        (SpellableStmts.spelled alternative h.2.2)
  | .loop c body, h =>
      spelled_loop (Expr.Spellable.spelled c h.1) (SpellableStmts.spelled body h.2)
  | .function _ body, h => spelled_function h.1 (SpellableStmts.spelled body h.2)
  | .call e args, h =>
      spelled_call (Expr.Spellable.spelled e h.1) (SpellableExprs.spelled args h.2)

theorem Stmt.Spellable.spelled : (s : Stmt) → s.Spellable → s.Spelled
  | .bind _ e, h => spelled_bind h.1 (Expr.Spellable.spelled e h.2)
  | .ret e, h => spelled_ret (Expr.Spellable.spelled e h)
  | .expr e, h => spelled_expr (Expr.Spellable.spelled e h)
  | .block body, h => spelled_block (SpellableStmts.spelled body h)

theorem SpellableExprs.spelled : (es : List Expr) → SpellableExprs es → SpelledArgs es
  | [], _ => spelledArgs_nil
  | e :: es, h => spelledArgs_cons (Expr.Spellable.spelled e h.1) (SpellableExprs.spelled es h.2)

theorem SpellableStmts.spelled : (body : List Stmt) → SpellableStmts body → SpelledStmts body
  | [], _ => spelledStmts_nil
  | s :: body, h =>
      spelledStmts_cons (Stmt.Spellable.spelled s h.1) (SpellableStmts.spelled body h.2)

end

mutual

/-- An expression that can be written equals itself, since its numbers are finite. -/
theorem Expr.Spellable.same_self : (e : Expr) → e.Spellable → e.same e = true
  | .ident _, _ => by simp [Expr.same]
  | .int _, _ => by simp [Expr.same]
  | .float _, h => Number.beq_self_of_isFinite h.2
  | .bool _, _ => by simp [Expr.same]
  | .string _, _ => by simp [Expr.same]
  | .array es, h => SpellableExprs.same_self es h
  | .unary _ e, h => by simp [Expr.same, Expr.Spellable.same_self e h]
  | .binary _ l r, h => by
      simp [Expr.same, Expr.Spellable.same_self l h.1, Expr.Spellable.same_self r h.2]
  | .index e i, h => by
      simp [Expr.same, Expr.Spellable.same_self e h.1, Expr.Spellable.same_self i h.2]
  | .conditional c body none, h => by
      simp [Expr.same, sameAlternative, Expr.Spellable.same_self c h.1,
        SpellableStmts.same_self body h.2.1]
  | .conditional c body (some alternative), h => by
      simp [Expr.same, sameAlternative, Expr.Spellable.same_self c h.1,
        SpellableStmts.same_self body h.2.1, SpellableStmts.same_self alternative h.2.2]
  | .loop c body, h => by
      simp [Expr.same, Expr.Spellable.same_self c h.1, SpellableStmts.same_self body h.2]
  | .function _ body, h => by simp [Expr.same, SpellableStmts.same_self body h.2]
  | .call e args, h => by
      simp [Expr.same, Expr.Spellable.same_self e h.1, SpellableExprs.same_self args h.2]

theorem Stmt.Spellable.same_self : (s : Stmt) → s.Spellable → s.same s = true
  | .bind _ e, h => by simp [Stmt.same, Expr.Spellable.same_self e h.2]
  | .ret e, h => Expr.Spellable.same_self e h
  | .expr e, h => Expr.Spellable.same_self e h
  | .block body, h => SpellableStmts.same_self body h

theorem SpellableExprs.same_self : (es : List Expr) → SpellableExprs es → sameExprs es es = true
  | [], _ => rfl
  | e :: es, h => by
      simp [sameExprs, Expr.Spellable.same_self e h.1, SpellableExprs.same_self es h.2]

theorem SpellableStmts.same_self :
    (body : List Stmt) → SpellableStmts body → sameStmts body body = true
  | [], _ => rfl
  | s :: body, h => by
      simp [sameStmts, Stmt.Spellable.same_self s h.1, SpellableStmts.same_self body h.2]

end

/-- The canonical text of statements that can be written is read as those statements. -/
theorem SpellableStmts.parse_render {program : Program} (h : SpellableStmts program) :
    parse program.render = ⟨program, []⟩ := by
  apply Statements.parseProgram_eq
  exact (SpellableStmts.spelled program h [] ends_nil).tokenize

/-- The canonical text of the program read from a source text. -/
def canonical (source : String) : String :=
  (parse source).program.render

/-- Whatever the source text, the canonical text of the program read from it is read without a
diagnostic, as that program again; so it is its own canonical text. -/
theorem parse_canonical (source : String) :
    (parse (canonical source)).diagnostics = [] ∧
      (parse (canonical source)).program = (parse source).program ∧
      sameStmts (parse (canonical source)).program (parse source).program = true ∧
      canonical (canonical source) = canonical source := by
  have hspellable := spellable_parse source
  have hparse : parse (canonical source) = ⟨(parse source).program, []⟩ := hspellable.parse_render
  refine ⟨?_, ?_, ?_, ?_⟩
  · rw [hparse]
  · rw [hparse]
  · rw [hparse]
    exact SpellableStmts.same_self _ hspellable
  · rw [canonical, hparse]
    rfl

end Monkey
