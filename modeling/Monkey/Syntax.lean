import Monkey.Token

/-!
# Syntax Trees

Programs as the evaluator sees them.

Expressions and statements contain each other: a function literal and the
branches of a condition hold statements, and a statement holds an expression.
A block is simply a list of statements, and so is a program.

Operators are token kinds. A tree built by hand may put any kind there, and
such a tree is still printed and evaluated; only the trees that are read from
text are limited to the operators of the grammar. The same freedom holds for
integers, which no literal writes with a sign, and for names.

Trees are compared by structure: nothing in a tree remembers where it was
read, so printing a program and reading it again can give the same tree.

## Main definitions

* `Expr`, `Stmt`: Expressions and statements.
* `Block`: A sequence of statements.
* `Expr.beq`, `Stmt.beq`: Equality of trees.
-/

namespace Monkey

mutual

/-- An expression. -/
inductive Expr where
  | ident (name : String)
  | int (value : Int64)
  | str (contents : String)
  | bool (value : Bool)
  /-- An operator in front of its operand. -/
  | unary (op : Kind) (operand : Expr)
  /-- An operator between its operands. -/
  | binary (op : Kind) (left right : Expr)
  /-- A condition. Without a second branch it yields null where it fails. -/
  | cond (test : Expr) (consequence : List Stmt) (alternative : Option (List Stmt))
  | fn (params : List String) (body : List Stmt)
  | call (callee : Expr) (args : List Expr)
  | array (elements : List Expr)
  | index (base key : Expr)
  /-- A map literal. Its pairs stay in the order of the source. -/
  | map (pairs : List (Expr × Expr))

/-- A statement. -/
inductive Stmt where
  /-- Binds a name in the current scope. -/
  | bind (name : String) (value : Expr)
  /-- Leaves the enclosing function or program. -/
  | ret (value : Expr)
  /-- An expression that stands for its value. -/
  | expr (value : Expr)

end

instance : Inhabited Expr := ⟨.bool false⟩

instance : Inhabited Stmt := ⟨.expr default⟩

/-- A sequence of statements: the body of a function, a branch of a condition
    or a program. -/
abbrev Block := List Stmt

mutual

/-- Whether two expressions are the same tree. -/
def Expr.beq : Expr → Expr → Bool
  | .ident a, .ident b => a == b
  | .int a, .int b => a == b
  | .str a, .str b => a == b
  | .bool a, .bool b => a == b
  | .unary op a, .unary op' b => op == op' && a.beq b
  | .binary op a b, .binary op' a' b' => op == op' && a.beq a' && b.beq b'
  | .cond t c none, .cond t' c' none => t.beq t' && Block.beq c c'
  | .cond t c (some d), .cond t' c' (some d') => t.beq t' && Block.beq c c' && Block.beq d d'
  | .fn ps b, .fn ps' b' => ps == ps' && Block.beq b b'
  | .call f args, .call f' args' => f.beq f' && Expr.beqList args args'
  | .array xs, .array xs' => Expr.beqList xs xs'
  | .index a i, .index a' i' => a.beq a' && i.beq i'
  | .map ps, .map ps' => Expr.beqPairs ps ps'
  | _, _ => false

/-- Whether two statements are the same tree. -/
def Stmt.beq : Stmt → Stmt → Bool
  | .bind n e, .bind n' e' => n == n' && e.beq e'
  | .ret e, .ret e' => e.beq e'
  | .expr e, .expr e' => e.beq e'
  | _, _ => false

/-- Whether two blocks hold the same statements in the same order. -/
def Block.beq : List Stmt → List Stmt → Bool
  | [], [] => true
  | s :: ss, t :: ts => s.beq t && Block.beq ss ts
  | _, _ => false

/-- Whether two lists hold the same expressions in the same order. -/
def Expr.beqList : List Expr → List Expr → Bool
  | [], [] => true
  | a :: as, b :: bs => a.beq b && Expr.beqList as bs
  | _, _ => false

/-- Whether two lists hold the same pairs in the same order. -/
def Expr.beqPairs : List (Expr × Expr) → List (Expr × Expr) → Bool
  | [], [] => true
  | (k, v) :: ps, (k', v') :: ps' => k.beq k' && v.beq v' && Expr.beqPairs ps ps'
  | _, _ => false

end

instance : BEq Expr := ⟨Expr.beq⟩

instance : BEq Stmt := ⟨Stmt.beq⟩

end Monkey
