import Monkey.Number.Float
import Monkey.Number.Integer
import Monkey.Program
import Monkey.Token

/-! # The grammar of programs

Which trees a list of tokens derives, stated without reading order, look-ahead or binding powers.
Operators stand in strata: the loosest stratum holds chains over the next one, and the tightest
chain holds operands with a sign, a negation or nothing in front. Positions play no part.

Statements need no closing semicolon, so `a (b)` could be one call or two statements. The grammar
settles this by what may follow an expression at the end of a statement (`Delimited`).
-/

namespace Monkey.Grammar

/-- Operators of one strength, each with the kind of its token. -/
abbrev Stratum := List (Token.Kind × BinaryOp)

/-- The strata of operators, loosest first. -/
def strata : List Stratum :=
  [[(.and, .and), (.or, .or)],
    [(.eq, .equal), (.notEq, .notEqual)],
    [(.lt, .less), (.gt, .greater)],
    [(.plus, .add), (.minus, .subtract)],
    [(.asterisk, .multiply), (.slash, .divide)]]

/-- The operators that stand before their operand. -/
def signs : List (Token.Kind × UnaryOp) :=
  [(.bang, .not), (.minus, .negate)]

/-- The kinds of the tokens that would extend an expression they follow. -/
def extending : List Token.Kind :=
  [.and, .or, .eq, .notEq, .lt, .gt, .plus, .minus, .asterisk, .slash, .lparen, .lbracket]

/-- The tokens after a statement do not extend it. Only a block cannot be extended. -/
def Delimited : Stmt → List Token → Prop
  | .block _, _ => True
  | _, rest => ∀ t ∈ rest.head?, t.kind ∉ extending

/-- Names between commas. -/
inductive Names : List Token → List String → Prop
  | last {t : Token} : t.kind = .ident → Names [t] [t.literal]
  | cons {t comma : Token} {ts : List Token} {names : List String} :
      t.kind = .ident → comma.kind = .comma → Names ts names →
        Names (t :: comma :: ts) (t.literal :: names)

/-- The parameters of a function, possibly none. -/
inductive Params : List Token → List String → Prop
  | nil : Params [] []
  | names {ts : List Token} {names : List String} : Names ts names → Params ts names

/-- A token that is an expression by itself. Literals of numbers must denote a number of the
language. -/
inductive Leaf : Token → Expr → Prop
  | ident {t : Token} : t.kind = .ident → Leaf t (.ident t.literal)
  | int {t : Token} {n : Int64} :
      t.kind = .int → Number.readInteger? t.literal = some n → Leaf t (.int n)
  | float {t : Token} {x : Float} :
      t.kind = .float → Number.readFloat? t.literal = some x → Number.isFinite x = true →
        Leaf t (.float x)
  | string {t : Token} : t.kind = .string → Leaf t (.string t.literal)
  | trueWord {t : Token} : t.kind = .trueWord → Leaf t (.bool true)
  | falseWord {t : Token} : t.kind = .falseWord → Leaf t (.bool false)

mutual

/-- A chain over the given strata. Operators of the loosest stratum lean to the left. -/
inductive Chain : List Stratum → List Token → Expr → Prop
  | operand {ts : List Token} {e : Expr} : Unary ts e → Chain [] ts e
  | tighter {ops : Stratum} {rest : List Stratum} {ts : List Token} {e : Expr} :
      Chain rest ts e → Chain (ops :: rest) ts e
  | binary {ops : Stratum} {rest : List Stratum} {ls rs : List Token} {t : Token} {op : BinaryOp}
      {l r : Expr} :
      Chain (ops :: rest) ls l → (t.kind, op) ∈ ops → Chain rest rs r →
        Chain (ops :: rest) (ls ++ t :: rs) (.binary op l r)

/-- An operand with any number of operators in front. -/
inductive Unary : List Token → Expr → Prop
  | sign {t : Token} {op : UnaryOp} {ts : List Token} {e : Expr} :
      (t.kind, op) ∈ signs → Unary ts e → Unary (t :: ts) (.unary op e)
  | suffixed {ts : List Token} {e : Expr} : Suffixed ts e → Unary ts e

/-- A primary expression followed by any mix of argument lists and indices. -/
inductive Suffixed : List Token → Expr → Prop
  | primary {ts : List Token} {e : Expr} : Primary ts e → Suffixed ts e
  | call {ts us : List Token} {opening closing : Token} {e : Expr} {args : List Expr} :
      Suffixed ts e → opening.kind = .lparen → Args us args → closing.kind = .rparen →
        Suffixed (ts ++ opening :: (us ++ [closing])) (.call e args)
  | index {ts us : List Token} {opening closing : Token} {e i : Expr} :
      Suffixed ts e → opening.kind = .lbracket → Chain strata us i → closing.kind = .rbracket →
        Suffixed (ts ++ opening :: (us ++ [closing])) (.index e i)

/-- An expression that starts and ends with tokens of its own. -/
inductive Primary : List Token → Expr → Prop
  | leaf {t : Token} {e : Expr} : Leaf t e → Primary [t] e
  | group {opening closing : Token} {ts : List Token} {e : Expr} :
      opening.kind = .lparen → Chain strata ts e → closing.kind = .rparen →
        Primary (opening :: (ts ++ [closing])) e
  | array {opening closing : Token} {ts : List Token} {elements : List Expr} :
      opening.kind = .lbracket → Args ts elements → closing.kind = .rbracket →
        Primary (opening :: (ts ++ [closing])) (.array elements)
  | conditional {word : Token} {cs bs : List Token} {c : Expr} {body : List Stmt} :
      word.kind = .ifWord → Condition cs c → Block bs body →
        Primary (word :: (cs ++ bs)) (.conditional c body none)
  | alternative {word elseWord : Token} {cs bs as : List Token} {c : Expr}
      {body alternative : List Stmt} :
      word.kind = .ifWord → Condition cs c → Block bs body → elseWord.kind = .elseWord →
        Block as alternative →
          Primary (word :: (cs ++ (bs ++ elseWord :: as))) (.conditional c body (some alternative))
  | loop {word : Token} {cs bs : List Token} {c : Expr} {body : List Stmt} :
      word.kind = .whileWord → Condition cs c → Block bs body →
        Primary (word :: (cs ++ bs)) (.loop c body)
  | function {word opening closing : Token} {ps bs : List Token} {params : List String}
      {body : List Stmt} :
      word.kind = .fnWord → opening.kind = .lparen → Params ps params → closing.kind = .rparen →
        Block bs body →
          Primary (word :: opening :: (ps ++ closing :: bs)) (.function params body)

/-- An expression in parentheses. -/
inductive Condition : List Token → Expr → Prop
  | mk {opening closing : Token} {ts : List Token} {e : Expr} :
      opening.kind = .lparen → Chain strata ts e → closing.kind = .rparen →
        Condition (opening :: (ts ++ [closing])) e

/-- Expressions between commas, possibly none. -/
inductive Args : List Token → List Expr → Prop
  | nil : Args [] []
  | items {ts : List Token} {es : List Expr} : Items ts es → Args ts es

/-- Expressions between commas, at least one. -/
inductive Items : List Token → List Expr → Prop
  | last {ts : List Token} {e : Expr} : Chain strata ts e → Items ts [e]
  | cons {ts us : List Token} {comma : Token} {e : Expr} {es : List Expr} :
      Chain strata ts e → comma.kind = .comma → Items us es → Items (ts ++ comma :: us) (e :: es)

/-- Statements in braces. -/
inductive Block : List Token → List Stmt → Prop
  | mk {opening closing : Token} {ts : List Token} {body : List Stmt} :
      opening.kind = .lbrace → Statements ts body → closing.kind = .rbrace →
        Block (opening :: (ts ++ [closing])) body

/-- A statement without its semicolon. -/
inductive Statement : List Token → Stmt → Prop
  | bind {word name assign : Token} {ts : List Token} {e : Expr} :
      word.kind = .letWord → name.kind = .ident → assign.kind = .assign → Chain strata ts e →
        Statement (word :: name :: assign :: ts) (.bind name.literal e)
  | ret {word : Token} {ts : List Token} {e : Expr} :
      word.kind = .returnWord → Chain strata ts e → Statement (word :: ts) (.ret e)
  | expr {ts : List Token} {e : Expr} : Chain strata ts e → Statement ts (.expr e)
  | block {ts : List Token} {body : List Stmt} : Block ts body → Statement ts (.block body)

/-- Statements, each with a semicolon or without, and further semicolons anywhere between them. -/
inductive Statements : List Token → List Stmt → Prop
  | nil : Statements [] []
  | separator {t : Token} {ts : List Token} {body : List Stmt} :
      t.kind = .semicolon → Statements ts body → Statements (t :: ts) body
  | closed {ts us : List Token} {t : Token} {s : Stmt} {body : List Stmt} :
      Statement ts s → t.kind = .semicolon → Statements us body →
        Statements (ts ++ t :: us) (s :: body)
  | bare {ts us : List Token} {s : Stmt} {body : List Stmt} :
      Statement ts s → Delimited s us → Statements us body → Statements (ts ++ us) (s :: body)

end

/-! ## First tokens -/

/-- The kinds of the tokens that an expression can start with. -/
def starting : List Token.Kind :=
  [.ident, .int, .float, .string, .trueWord, .falseWord, .bang, .minus, .lparen, .lbracket, .ifWord,
    .whileWord, .fnWord]

/-- The tokens start like an expression. In particular there are some. -/
def Starts (ts : List Token) : Prop :=
  ∃ t us, ts = t :: us ∧ t.kind ∈ starting

theorem Starts.append {ts us : List Token} (h : Starts ts) : Starts (ts ++ us) := by
  obtain ⟨t, vs, rfl, ht⟩ := h
  exact ⟨t, vs ++ us, rfl, ht⟩

theorem Leaf.kind_mem {t : Token} {e : Expr} (h : Leaf t e) : t.kind ∈ starting := by
  cases h with
  | ident h | int h | float h | string h | trueWord h | falseWord h => rw [h]; decide

theorem Primary.starts {ts : List Token} {e : Expr} (h : Primary ts e) : Starts ts := by
  cases h with
  | leaf h => exact ⟨_, _, rfl, h.kind_mem⟩
  | group h | array h | conditional h | alternative h | loop h | function h =>
      exact ⟨_, _, rfl, by rw [h]; decide⟩

theorem Suffixed.starts {ts : List Token} {e : Expr} : Suffixed ts e → Starts ts
  | .primary h => h.starts
  | .call h _ _ _ => h.starts.append
  | .index h _ _ _ => h.starts.append

theorem Unary.starts {ts : List Token} {e : Expr} (h : Unary ts e) : Starts ts := by
  cases h with
  | sign h =>
      have hmem : ∀ x ∈ signs, x.1 ∈ starting := by decide
      exact ⟨_, _, rfl, hmem _ h⟩
  | suffixed h => exact h.starts

theorem Chain.starts {strata : List Stratum} {ts : List Token} {e : Expr} :
    Chain strata ts e → Starts ts
  | .operand h => h.starts
  | .tighter h => h.starts
  | .binary h _ _ => h.starts.append

theorem Items.starts {ts : List Token} {es : List Expr} (h : Items ts es) : Starts ts := by
  cases h with
  | last h => exact h.starts
  | cons h => exact h.starts.append

/-- A statement starts like an expression, or with a word or brace of its own. -/
theorem Statement.starts {ts : List Token} {s : Stmt} (h : Statement ts s) :
    ∃ t us, ts = t :: us ∧ t.kind ∈ .letWord :: .returnWord :: .lbrace :: starting := by
  cases h with
  | bind h | ret h => exact ⟨_, _, rfl, by rw [h]; decide⟩
  | expr h =>
      obtain ⟨t, us, rfl, ht⟩ := h.starts
      exact ⟨t, us, rfl, by simp [ht]⟩
  | block h =>
      cases h with
      | mk h => exact ⟨_, _, rfl, by rw [h]; decide⟩

theorem Statements.starts {ts : List Token} {body : List Stmt} (h : Statements ts body) :
    ts = [] ∨ ∃ t us, ts = t :: us ∧
      t.kind ∈ .semicolon :: .letWord :: .returnWord :: .lbrace :: starting := by
  cases h with
  | nil => exact .inl rfl
  | separator h => exact .inr ⟨_, _, rfl, by rw [h]; decide⟩
  | closed h | bare h =>
      obtain ⟨t, us, rfl, ht⟩ := h.starts
      exact .inr ⟨t, _, rfl, List.mem_cons_of_mem _ ht⟩

theorem Statement.length_pos {ts : List Token} {s : Stmt} (h : Statement ts s) : 0 < ts.length := by
  obtain ⟨t, us, rfl, -⟩ := h.starts
  simp

end Monkey.Grammar
