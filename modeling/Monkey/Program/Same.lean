import Monkey.Program

/-!
# Equality of programs

Two trees are the same when they have the same shape and the same leaves. Floating-point literals
are compared as numbers, so the two zeros are the same.
-/

namespace Monkey

mutual

/-- Equality of expressions. -/
def Expr.same : Expr → Expr → Bool
  | .ident a, .ident b => a == b
  | .int a, .int b => a == b
  | .float a, .float b => a == b
  | .bool a, .bool b => a == b
  | .string a, .string b => a == b
  | .array a, .array b => sameExprs a b
  | .unary op a, .unary op' b => op == op' && a.same b
  | .binary op a b, .binary op' a' b' => op == op' && a.same a' && b.same b'
  | .index a b, .index a' b' => a.same a' && b.same b'
  | .conditional a b c, .conditional a' b' c' => a.same a' && sameStmts b b' && sameAlternative c c'
  | .loop a b, .loop a' b' => a.same a' && sameStmts b b'
  | .function a b, .function a' b' => a == a' && sameStmts b b'
  | .call a b, .call a' b' => a.same a' && sameExprs b b'
  | _, _ => false
termination_by structural tree => tree

/-- Equality of statements. -/
def Stmt.same : Stmt → Stmt → Bool
  | .bind a b, .bind a' b' => a == a' && b.same b'
  | .ret a, .ret b => a.same b
  | .expr a, .expr b => a.same b
  | .block a, .block b => sameStmts a b
  | _, _ => false
termination_by structural tree => tree

/-- Equality of lists of expressions. -/
def sameExprs : List Expr → List Expr → Bool
  | [], [] => true
  | a :: as, b :: bs => a.same b && sameExprs as bs
  | _, _ => false
termination_by structural tree => tree

/-- Equality of lists of statements. -/
def sameStmts : List Stmt → List Stmt → Bool
  | [], [] => true
  | a :: as, b :: bs => a.same b && sameStmts as bs
  | _, _ => false
termination_by structural tree => tree

/-- Equality of optional blocks. -/
def sameAlternative : Option (List Stmt) → Option (List Stmt) → Bool
  | none, none => true
  | some a, some b => sameStmts a b
  | _, _ => false
termination_by structural tree => tree

end

instance : BEq Expr := ⟨Expr.same⟩

instance : BEq Stmt := ⟨Stmt.same⟩

end Monkey
