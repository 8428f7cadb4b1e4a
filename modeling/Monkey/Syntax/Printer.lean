import Monkey.Syntax
import Monkey.Text.Decimal
import Monkey.Text.Escape

/-!
# Printing Syntax Trees

Programs as text that can be read again.

Every operator is printed with parentheses around it and its operands, and so
is an index, so the text never depends on how tightly operators bind.
Conditions, functions, calls and literals are printed without: each of them
starts with a token of its own and ends with a closing one.

A program shows as its statements with semicolons between them. The semicolon
is a separator and not a terminator, so the last statement has none; a block
has a blank inside each brace even when it is empty.

## Main definitions

* `Expr.text`, `Stmt.text`: An expression or statement as text.
* `Block.text`: A block in its braces.
* `Program.text`: A program, without braces.
-/

namespace Monkey

namespace Text

/-- The two words for the truth values. -/
def truth (b : Bool) : String :=
  if b then Kind.trueWord.name else Kind.falseWord.name

/-- Texts with a comma and a blank between them. -/
def commaSeparated (items : List String) : String :=
  String.intercalate ", " items

/-- A text in braces. -/
def braced (body : String) : String :=
  "\x7b" ++ body ++ "\x7d"

end Text

mutual

/-- An expression as text. -/
def Expr.text : Expr → String
  | .ident name => name
  | .int value => Text.signedDecimal value
  | .str contents => Text.quoted contents
  | .bool value => Text.truth value
  | .unary op operand => "(" ++ op.name ++ operand.text ++ ")"
  | .binary op left right => "(" ++ left.text ++ " " ++ op.name ++ " " ++ right.text ++ ")"
  | .cond test consequence alternative =>
    "if " ++ test.text ++ " " ++ Block.text consequence ++
      match alternative with
      | some block => " else " ++ Block.text block
      | none => ""
  | .fn params body => "fn(" ++ Text.commaSeparated params ++ ") " ++ Block.text body
  | .call callee args => callee.text ++ "(" ++ Text.commaSeparated (Expr.texts args) ++ ")"
  | .array elements => "[" ++ Text.commaSeparated (Expr.texts elements) ++ "]"
  | .index base key => "(" ++ base.text ++ "[" ++ key.text ++ "])"
  | .map pairs => Text.braced (Text.commaSeparated (Expr.pairTexts pairs))

/-- A statement as text, without a semicolon. -/
def Stmt.text : Stmt → String
  | .bind name value => "let " ++ name ++ " = " ++ value.text
  | .ret value => "return " ++ value.text
  | .expr value => value.text

/-- A block in its braces. -/
def Block.text : List Stmt → String
  | [] => Text.braced " "
  | s :: ss => Text.braced (" " ++ String.intercalate "; " (s.text :: Block.texts ss) ++ " ")

/-- The statements of a block as text, one by one. -/
def Block.texts : List Stmt → List String
  | [] => []
  | s :: ss => s.text :: Block.texts ss

/-- Expressions as text, one by one. -/
def Expr.texts : List Expr → List String
  | [] => []
  | e :: es => e.text :: Expr.texts es

/-- The pairs of a map literal as text, one by one. -/
def Expr.pairTexts : List (Expr × Expr) → List String
  | [] => []
  | (k, v) :: ps => (k.text ++ ": " ++ v.text) :: Expr.pairTexts ps

end

/-- A program as text: its statements with semicolons between them. -/
def Program.text (program : Block) : String :=
  String.intercalate "; " (Block.texts program)

end Monkey
