import Monkey.Eval.Basic
import Monkey.Value.Slots

/-!
# Operators

What operators and indexing do with values.

Integers are 64-bit words: addition, subtraction, multiplication and negation
wrap, and division truncates toward zero. The quotient of the smallest
integer and minus one wraps as well, to the smallest integer.

Integers are compared by value and everything else by identity. Hence two
strings with equal contents are different, and a builtin is different from
itself, since looking its name up makes a new object each time. Strings can
be joined. No other combination has an operator; whether that is reported as
a mismatch of types or as an unknown operator depends on whether the types
differ.

Indexing an array outside its bounds, or a map at a key it does not have,
yields null and is no error.

## Main definitions

* `Eval.unary`: An operator in front of a value.
* `Eval.arithmetic`: An operator between integers.
* `Eval.binary`: An operator between values.
* `Eval.index`: An array at a position, or a map at a key.
-/

namespace Monkey

namespace Eval

/-- What an operator in front of a value yields. -/
def unary (op : Kind) (operand : Value) : Eval Value :=
  match op, operand with
  | .bang, v => pure (.bool !v.truthy)
  | .minus, .int _ n => newInt (-n)
  | op, v => newError (.unknownUnary op v.type)

/-- What an operator between integers yields. -/
def arithmetic (op : Kind) (m n : Int64) : Eval Value :=
  match op with
  | .plus => newInt (m + n)
  | .minus => newInt (m - n)
  | .star => newInt (m * n)
  | .slash => if n = 0 then newError .divisionByZero else newInt (m / n)
  | .less => pure (.bool (m < n))
  | .greater => pure (.bool (n < m))
  | .equal => pure (.bool (m == n))
  | .notEqual => pure (.bool (m != n))
  | op => newError (.unknownBinary .integer op .integer)

/-- What an operator between two values yields that are not both integers,
    and not two strings to be joined. -/
def compare (op : Kind) (left right : Value) : Eval Value :=
  match op with
  | .equal => pure (.bool (left.same right))
  | .notEqual => pure (.bool !(left.same right))
  | op =>
    if left.type = right.type then newError (.unknownBinary left.type op right.type)
    else newError (.typeMismatch left.type op right.type)

/-- What an operator between two values yields. -/
def binary (op : Kind) (left right : Value) : Eval Value :=
  match left, right with
  | .int _ m, .int _ n => arithmetic op m n
  | .str _ s, .str _ t => if op = .plus then newStr (s ++ t) else compare op left right
  | _, _ => compare op left right

/-- The element of an array at a position. There is none in front of the
    array or behind its end. -/
def elementAt (elements : List Value) (i : Int64) : Value :=
  if i < 0 then .null else (elements[i.toInt.toNat]?).getD .null

/-- What indexing a value yields. -/
def index (base key : Value) : Eval Value :=
  match base, key with
  | .array _ elements, .int _ i => pure (elementAt elements i)
  | .map _ slots, key =>
    match key.hashKey? with
    | some hash => pure ((Slots.find? hash slots).elim .null Slot.value)
    | none => newError (.notHashable key.type)
  | base, key => newError (.notIndexable base.type key.type)

end Eval

end Monkey
