import Monkey.Proofs.Program.Spellable

/-! # Dialects

A dialect is a part of the language that is closed under taking code apart. Evaluation only ever
runs parts of what it is given, so code of a dialect stays in it. Three dialects are of interest:
code that can be written (`Dialect.spellable`), code without loops (`Dialect.loopFree`) and code
that does not mention a name (`Dialect.without`).
-/

namespace Monkey

/-! ## Parts of trees -/

/-- The expressions right below an expression, those in its blocks left out. -/
def Expr.children : Expr → List Expr
  | .array elements => elements
  | .unary _ operand => [operand]
  | .binary _ left right => [left, right]
  | .index collection place => [collection, place]
  | .conditional condition _ _ | .loop condition _ => [condition]
  | .call callee args => callee :: args
  | _ => []

/-- The statements of the blocks of an expression. -/
def Expr.statements : Expr → List Stmt
  | .conditional _ consequence alternative => consequence ++ alternative.getD []
  | .loop _ body | .function _ body => body
  | _ => []

/-- The expressions right below a statement. -/
def Stmt.children : Stmt → List Expr
  | .bind _ value | .ret value | .expr value => [value]
  | .block _ => []

/-- The statements right below a statement. -/
def Stmt.statements : Stmt → List Stmt
  | .block body => body
  | _ => []

/-- A part of the language that holds with a tree everything below it. -/
structure Dialect where
  expr : Expr → Prop
  stmt : Stmt → Prop
  expr_of_expr : ∀ {e part}, expr e → part ∈ e.children → expr part
  stmt_of_expr : ∀ {e s}, expr e → s ∈ e.statements → stmt s
  expr_of_stmt : ∀ {s part}, stmt s → part ∈ s.children → expr part
  stmt_of_stmt : ∀ {s part}, stmt s → part ∈ s.statements → stmt part

namespace Dialect

/-- The statements of the block are in the dialect. -/
def block (dialect : Dialect) (body : Block) : Prop :=
  ∀ s ∈ body, dialect.stmt s

variable {dialect : Dialect}

theorem block_branch {condition : Expr} {consequence : Block} {alternative : Option Block}
    (he : dialect.expr (.conditional condition consequence alternative)) (decision : Bool) :
    dialect.block (if decision then consequence else alternative.getD []) := by
  intro s hs
  refine dialect.stmt_of_expr he (List.mem_append.mpr ?_)
  cases decision with
  | true => exact .inl hs
  | false => exact .inr hs

end Dialect

/-! ## Dialects by checks on nodes -/

mutual

/-- Every expression and every statement of the tree passes its check. -/
def Expr.checked (node : Expr → Bool) (statement : Stmt → Bool) : Expr → Bool
  | .array elements => node (.array elements) && checkedExprs node statement elements
  | .unary op operand => node (.unary op operand) && operand.checked node statement
  | .binary op left right =>
    node (.binary op left right) && left.checked node statement && right.checked node statement
  | .index collection place =>
    node (.index collection place) && collection.checked node statement &&
      place.checked node statement
  | .conditional condition consequence alternative =>
    node (.conditional condition consequence alternative) && condition.checked node statement &&
      checkedStmts node statement consequence && checkedAlternative node statement alternative
  | .loop condition body =>
    node (.loop condition body) && condition.checked node statement &&
      checkedStmts node statement body
  | .function params body => node (.function params body) && checkedStmts node statement body
  | .call callee args =>
    node (.call callee args) && callee.checked node statement && checkedExprs node statement args
  | .ident name => node (.ident name)
  | .int value => node (.int value)
  | .float value => node (.float value)
  | .bool value => node (.bool value)
  | .string value => node (.string value)

/-- Every expression and every statement of the tree passes its check. -/
def Stmt.checked (node : Expr → Bool) (statement : Stmt → Bool) : Stmt → Bool
  | .bind name value => statement (.bind name value) && value.checked node statement
  | .ret value => statement (.ret value) && value.checked node statement
  | .expr value => statement (.expr value) && value.checked node statement
  | .block body => statement (.block body) && checkedStmts node statement body

def checkedExprs (node : Expr → Bool) (statement : Stmt → Bool) : List Expr → Bool
  | [] => true
  | first :: rest => first.checked node statement && checkedExprs node statement rest

def checkedStmts (node : Expr → Bool) (statement : Stmt → Bool) : List Stmt → Bool
  | [] => true
  | first :: rest => first.checked node statement && checkedStmts node statement rest

def checkedAlternative (node : Expr → Bool) (statement : Stmt → Bool) :
    Option (List Stmt) → Bool
  | none => true
  | some body => checkedStmts node statement body

end

section

variable {node : Expr → Bool} {statement : Stmt → Bool}

theorem checkedExprs_iff {es : List Expr} :
    checkedExprs node statement es = true ↔ ∀ e ∈ es, e.checked node statement = true := by
  induction es with
  | nil => simp [checkedExprs]
  | cons first rest ih => simp [checkedExprs, ih]

theorem checkedStmts_iff {body : List Stmt} :
    checkedStmts node statement body = true ↔ ∀ s ∈ body, s.checked node statement = true := by
  induction body with
  | nil => simp [checkedStmts]
  | cons first rest ih => simp [checkedStmts, ih]

theorem checkedAlternative_iff {alternative : Option (List Stmt)} :
    checkedAlternative node statement alternative = true ↔
      ∀ s ∈ alternative.getD [], s.checked node statement = true := by
  cases alternative with
  | none => simp [checkedAlternative]
  | some body => simp [checkedAlternative, checkedStmts_iff]

theorem Expr.checked_iff {e : Expr} :
    e.checked node statement = true ↔
      node e = true ∧ (∀ part ∈ e.children, part.checked node statement = true) ∧
        ∀ s ∈ e.statements, s.checked node statement = true := by
  cases e with
  | _ =>
      simp [checked, children, statements, checkedExprs_iff, checkedStmts_iff,
        checkedAlternative_iff, or_imp, forall_and, and_assoc]

theorem Stmt.checked_iff {s : Stmt} :
    s.checked node statement = true ↔
      statement s = true ∧ (∀ part ∈ s.children, part.checked node statement = true) ∧
        ∀ part ∈ s.statements, part.checked node statement = true := by
  cases s with
  | _ => simp [checked, children, statements, checkedStmts_iff]

end

namespace Dialect

/-- The trees all of whose nodes pass a check. -/
def ofChecks (node : Expr → Bool) (statement : Stmt → Bool) : Dialect where
  expr e := e.checked node statement = true
  stmt s := s.checked node statement = true
  expr_of_expr he hpart := (Expr.checked_iff.mp he).2.1 _ hpart
  stmt_of_expr he hs := (Expr.checked_iff.mp he).2.2 _ hs
  expr_of_stmt hs hpart := (Stmt.checked_iff.mp hs).2.1 _ hpart
  stmt_of_stmt hs hpart := (Stmt.checked_iff.mp hs).2.2 _ hpart

theorem block_ofChecks {node : Expr → Bool} {statement : Stmt → Bool} {body : Block}
    (hbody : checkedStmts node statement body = true) : (ofChecks node statement).block body :=
  checkedStmts_iff.mp hbody

end Dialect

/-! ## Code without loops and code without a name -/

def Expr.isLoop : Expr → Bool
  | .loop .. => true
  | _ => false

/-- The expression itself mentions the name, as an identifier or as a parameter. -/
def Expr.mentions (name : String) : Expr → Bool
  | .ident other => other == name
  | .function params _ => params.contains name
  | _ => false

/-- The statement itself binds the name. -/
def Stmt.binds (name : String) : Stmt → Bool
  | .bind other _ => other == name
  | _ => false

namespace Dialect

/-- Code without loops. -/
def loopFree : Dialect :=
  ofChecks (fun e => !e.isLoop) fun _ => true

/-- Code in which a name occurs neither as an identifier nor as a parameter nor as a name to
bind. -/
def without (name : String) : Dialect :=
  ofChecks (fun e => !e.mentions name) fun s => !s.binds name

theorem not_loopFree_loop (condition : Expr) (body : Block) :
    ¬ loopFree.expr (.loop condition body) :=
  fun h => nomatch (Expr.checked_iff.mp h).1

section

variable {name other : String}

theorem ne_of_without_ident (h : (without name).expr (.ident other)) : other ≠ name := by
  simpa [Expr.mentions] using (Expr.checked_iff.mp h).1

theorem not_mem_of_without_function {params : List String} {body : Block}
    (h : (without name).expr (.function params body)) : name ∉ params := by
  simpa [Expr.mentions] using (Expr.checked_iff.mp h).1

theorem ne_of_without_bind {value : Expr} (h : (without name).stmt (.bind other value)) :
    other ≠ name := by
  simpa [Stmt.binds] using (Stmt.checked_iff.mp h).1

end

/-! ## Code that can be written -/

theorem forall_spellable_iff {es : List Expr} : SpellableExprs es ↔ ∀ e ∈ es, e.Spellable := by
  induction es with
  | nil => simp [SpellableExprs]
  | cons first rest ih => simp [SpellableExprs, ih]

theorem forall_spellable_stmt_iff {body : Block} :
    SpellableStmts body ↔ ∀ s ∈ body, s.Spellable := by
  induction body with
  | nil => simp [SpellableStmts]
  | cons first rest ih => simp [SpellableStmts, ih]

theorem spellableAlternative_iff {alternative : Option Block} :
    SpellableAlternative alternative ↔ ∀ s ∈ alternative.getD [], s.Spellable := by
  cases alternative with
  | none => simp [SpellableAlternative]
  | some body => exact forall_spellable_stmt_iff

theorem forall_parts_spellable {e : Expr} (he : e.Spellable) :
    ∀ part ∈ e.children, part.Spellable := by
  cases e with
  | array elements => exact forall_spellable_iff.mp he
  | call callee args => exact List.forall_mem_cons.mpr ⟨he.1, forall_spellable_iff.mp he.2⟩
  | unary | binary | index | conditional | loop => simp_all [Expr.Spellable, Expr.children]
  | _ => exact List.forall_mem_nil _

theorem forall_statements_spellable {e : Expr} (he : e.Spellable) :
    ∀ s ∈ e.statements, s.Spellable := by
  cases e with
  | conditional condition consequence alternative =>
      rw [Expr.statements, List.forall_mem_append]
      exact ⟨forall_spellable_stmt_iff.mp he.2.1, spellableAlternative_iff.mp he.2.2⟩
  | loop condition body | function params body => exact forall_spellable_stmt_iff.mp he.2
  | _ => exact List.forall_mem_nil _

/-- Code all of whose leaves have a literal. -/
def spellable : Dialect where
  expr := Expr.Spellable
  stmt := Stmt.Spellable
  expr_of_expr he hpart := forall_parts_spellable he _ hpart
  stmt_of_expr he hs := forall_statements_spellable he _ hs
  expr_of_stmt {s} part hs hpart := by
    cases s with
    | block => cases hpart
    | _ => simp_all [Stmt.Spellable, Stmt.children]
  stmt_of_stmt {s} part hs hpart := by
    cases s with
    | block body => exact forall_spellable_stmt_iff.mp hs part hpart
    | _ => cases hpart

theorem spellable_block_parse (source : String) : spellable.block (parse source).program :=
  forall_spellable_stmt_iff.mp (spellable_parse source)

end Dialect

end Monkey
