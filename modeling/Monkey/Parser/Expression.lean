import Monkey.Parser.Basic
import Monkey.Syntax
import Monkey.Text.Decimal

/-!
# Parsing Expressions and Blocks

The grammar of expressions, by precedence climbing.

An expression is an operand followed by operators. How far it extends is
decided by a precedence: an operator is taken as long as it binds tighter
than what stands to the left of the operand. Operators of one precedence
associate to the left because the comparison is strict. A call or an index
counts as an operator that binds tightest of all.

The parsers below are written for a given parser of inner expressions and
are not recursive through it. `Parser.expression` ties the knot: what it
hands to them is itself with one unit of fuel less. Every inner expression
starts behind at least one token of the outer one, so fuel beyond the number
of unread tokens is never used up, and the loops need no more than that
either.

Statements occur within expressions, as the bodies of functions and the
branches of conditions. A malformed statement there is recorded and left out,
and the expression around it is still built.

## Main definitions

* `Precedence`: How tightly an operator binds.
* `Parser.operand`: An expression without operators behind it.
* `Parser.operators`: The operators behind an operand.
* `Parser.statement`: A statement with its optional semicolon.
* `Parser.block`: The statements up to a closing brace.
* `Parser.expression`: An expression of a given precedence.
-/

namespace Monkey

/-- How tightly an operator binds, from loosest to tightest. -/
inductive Precedence where
  | lowest
  /-- The operators `==` and `!=`. -/
  | equality
  /-- The operators `<` and `>`. -/
  | comparison
  /-- The operators `+` and `-` between operands. -/
  | sum
  /-- The operators `*` and `/`. -/
  | product
  /-- The operators `!` and `-` in front of an operand. -/
  | unary
  /-- A call or an index. -/
  | call
  deriving DecidableEq, Repr

namespace Precedence

/-- The place of a precedence in the order. -/
def level : Precedence → Nat
  | lowest => 0
  | equality => 1
  | comparison => 2
  | sum => 3
  | product => 4
  | unary => 5
  | call => 6

instance : LT Precedence := ⟨fun p q => p.level < q.level⟩

instance (p q : Precedence) : Decidable (p < q) :=
  inferInstanceAs (Decidable (p.level < q.level))

/-- How tightly a token binds behind an operand. A token that is no operator
    binds as loosely as can be, so it is never taken for one. -/
def ofKind : Kind → Precedence
  | .equal | .notEqual => equality
  | .less | .greater => comparison
  | .plus | .minus => sum
  | .star | .slash => product
  | .leftParen | .leftBracket => call
  | _ => lowest

end Precedence

namespace Parser

variable {α : Type}

/-- What follows the first item of a list: commas, each with an item. -/
def commaTail (item : Parser α) : Nat → Parser (List α)
  | 0 => exhausted
  | n + 1 => do
    if ← accept .comma then
      let x ← item
      let xs ← commaTail item n
      return x :: xs
    else
      return []

/-- Items with commas between them, up to a closing token. The opening token
    has been consumed. A comma in front of the closing token is an error of
    the missing item. -/
def listUpTo (close : Kind) (item : Parser α) (fuel : Nat) : Parser (List α) := do
  if ← accept close then
    return []
  else
    let x ← item
    let xs ← commaTail item fuel
    let _ ← expect close
    return x :: xs

/-- The name of a parameter. -/
def parameter : Parser String := do
  let name ← expect .identifier
  return name.literal

/-- An integer literal. -/
def integer (t : Token) : Parser Expr :=
  match Text.readInteger? t.literal with
  | some value => pure (.int value)
  | none => fail (.outOfRange t)

section

variable (self : Precedence → Parser Expr)

/-- The pairs of a map literal up to its closing brace. Unlike a list it may
    have a comma behind its last pair. -/
def pairsUpToBrace : Nat → Parser (List (Expr × Expr))
  | 0 => exhausted
  | n + 1 => do
    if ← accept .rightBrace then
      return []
    else
      let key ← self .lowest
      let _ ← expect .colon
      let value ← self .lowest
      -- A brace is left for the next round, so that a comma in front of it changes nothing.
      if (← peek).kind = .rightBrace then
        let pairs ← pairsUpToBrace n
        return (key, value) :: pairs
      else
        let _ ← expect .comma
        let pairs ← pairsUpToBrace n
        return (key, value) :: pairs

/-- A statement without its semicolon. -/
def bareStatement : Parser Stmt := do
  match (← peek).kind with
  | .letWord =>
    let _ ← take
    let name ← expect .identifier
    let _ ← expect .assign
    let value ← self .lowest
    return .bind name.literal value
  | .returnWord =>
    let _ ← take
    let value ← self .lowest
    return .ret value
  | _ =>
    let value ← self .lowest
    return .expr value

/-- A statement, with the semicolon behind it if there is one. -/
def statement : Parser Stmt := do
  let s ← bareStatement self
  let _ ← accept .semicolon
  return s

/-- The statements of a block up to its closing brace. The end of input
    closes every block, without an error. -/
def statementsUpToBrace : Nat → Parser Block
  | 0 => exhausted
  | n + 1 => do
    match (← peek).kind with
    | .rightBrace =>
      let _ ← take
      return []
    | .finish => return []
    | _ =>
      -- What fails in here is recorded, and the block goes on behind it.
      let s ← recovering (statement self)
      let ss ← statementsUpToBrace n
      return s.toList ++ ss

/-- A block behind its opening brace. -/
def block (fuel : Nat) : Parser Block :=
  inBlock (statementsUpToBrace self fuel)

/-- A condition behind its first word. What `else if` introduces is a block
    that holds nothing but the second condition. -/
def conditional : Nat → Parser Expr
  | 0 => exhausted
  | n + 1 => do
    let test ← self .lowest
    let _ ← expect .leftBrace
    let consequence ← block self n
    if ← accept .elseWord then
      if ← accept .ifWord then
        let nested ← conditional n
        return .cond test consequence (some [.expr nested])
      else
        let _ ← expect .leftBrace
        let alternative ← block self n
        return .cond test consequence (some alternative)
    else
      return .cond test consequence none

/-- A function literal behind its first word. -/
def function (fuel : Nat) : Parser Expr := do
  let _ ← expect .leftParen
  let params ← listUpTo .rightParen parameter fuel
  let _ ← expect .leftBrace
  let body ← block self fuel
  return .fn params body

/-- An expression in parentheses, behind the opening one. -/
def grouped : Parser Expr := do
  let e ← self .lowest
  let _ ← expect .rightParen
  return e

/-- An expression without operators behind it. The token that starts it says
    which one; a token that starts none is consumed and refused. -/
def operand (fuel : Nat) : Parser Expr := do
  let t ← take
  match t.kind with
  | .identifier => return .ident t.literal
  | .integer => integer t
  | .string => return .str t.literal
  | .trueWord => return .bool true
  | .falseWord => return .bool false
  | .bang | .minus =>
    -- A call or an index behind the operand belongs to the operand.
    let e ← self .unary
    return .unary t.kind e
  | .leftParen => grouped self
  | .ifWord => conditional self fuel
  | .fnWord => function self fuel
  | .leftBracket =>
    let es ← listUpTo .rightBracket (self .lowest) fuel
    return .array es
  | .leftBrace =>
    let ps ← pairsUpToBrace self fuel
    return .map ps
  | _ => fail (.unexpected t)

/-- What an operator makes of the expression to its left. The operator has
    been consumed. -/
def operator (fuel : Nat) (t : Token) (left : Expr) : Parser Expr :=
  match t.kind with
  | .leftParen => do
    let args ← listUpTo .rightParen (self .lowest) fuel
    return .call left args
  | .leftBracket => do
    let key ← self .lowest
    let _ ← expect .rightBracket
    return .index left key
  | kind => do
    -- The same operator once more does not bind tighter, so it is left to the caller.
    let right ← self (.ofKind kind)
    return .binary kind left right

/-- The operators behind an operand, as long as they bind tighter than the
    given precedence. -/
def operators (fuel : Nat) (p : Precedence) : Nat → Expr → Parser Expr
  | 0, _ => exhausted
  | n + 1, left => do
    let t ← peek
    if p < .ofKind t.kind then
      let _ ← take
      let longer ← operator self fuel t left
      operators fuel p n longer
    else
      return left

end

/-- An expression whose operators all bind tighter than the given
    precedence. -/
def expression : Nat → Precedence → Parser Expr
  | 0, _ => exhausted
  | n + 1, p => do
    let left ← operand (expression n) n
    operators (expression n) n p n left

end Parser

end Monkey
