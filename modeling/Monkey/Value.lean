import Monkey.Syntax

/-!
# Values

What expressions evaluate to.

A value is an object, and it carries the number it was given when it was made.
The number is its identity: the language compares objects with it, and two
objects with equal contents are different objects unless they are one and the
same. Objects never change, so a value is a tree, and sharing shows only in the
numbers.

Null and the truth values are objects like all others, and another null would
be different from the first one. That there is only one is up to whoever makes
objects. The shared null and the shared truth values have the first numbers,
and are there before anything else is made (`Value.null`, `Value.bool`).

Two kinds of values control the evaluation instead of taking part in it. An
`error` stops everything, and a `returned` value stops everything up to the
call of the function it leaves. Both are called stopping, and whoever meets a
stopping value hands it on.

A function remembers the scope it was made in by its number. A map files its
pairs under keys that are derived from its key objects; both objects of a
pair are kept, and the slots are listed in the order of their keys.

## Main definitions

* `ValueType`: The types of values, and `ValueType.name`.
* `Builtin`: The functions that exist without being bound.
* `RuntimeError`: What can go wrong in an evaluation.
* `HashKey`: What a map files a pair under.
* `Slot`: A pair in a map, with the key it is filed under.
* `Value`: A value.
* `Value.null`, `Value.bool`: The shared objects.
* `Value.number`: The number of an object.
* `Value.same`: Whether two values are one and the same.
-/

namespace Monkey

/-- The types of values, in the order in which map keys of different types
    are sorted. -/
inductive ValueType where
  | integer
  | string
  | boolean
  | null
  | returned
  | error
  | function
  | builtin
  | array
  | map
  deriving DecidableEq, Repr

namespace ValueType

/-- A type as messages name it. -/
def name : ValueType → String
  | integer => "INTEGER"
  | string => "STRING"
  | boolean => "BOOLEAN"
  | null => "NULL"
  | returned => "RETURN_VALUE"
  | error => "ERROR"
  | function => "FUNCTION"
  | builtin => "BUILTIN"
  | array => "ARRAY"
  | map => "MAP"

/-- The place of a type in the order of map keys. -/
def rank : ValueType → Nat
  | integer => 0
  | string => 1
  | boolean => 2
  | null => 3
  | returned => 4
  | error => 5
  | function => 6
  | builtin => 7
  | array => 8
  | map => 9

end ValueType

/-- The functions that exist without being bound. -/
inductive Builtin where
  | len
  | type
  | first
  | last
  | rest
  | push
  | puts
  deriving DecidableEq, Repr

namespace Builtin

/-- The name under which a builtin is found. -/
def name : Builtin → String
  | len => "len"
  | type => "type"
  | first => "first"
  | last => "last"
  | rest => "rest"
  | push => "push"
  | puts => "puts"

/-- The builtin of the given name. -/
def ofName? (name : String) : Option Builtin :=
  [len, type, first, last, rest, push, puts].find? (·.name == name)

/-- A builtin as a value shows it. -/
def text (b : Builtin) : String :=
  "builtin function " ++ b.name

end Builtin

/-- What can go wrong in an evaluation. -/
inductive RuntimeError where
  /-- No value of this type has the operator in front of it. -/
  | unknownUnary (op : Kind) (operand : ValueType)
  /-- Two values of one type do not have the operator between them. -/
  | unknownBinary (left : ValueType) (op : Kind) (right : ValueType)
  /-- Two values of different types do not have the operator between them. -/
  | typeMismatch (left : ValueType) (op : Kind) (right : ValueType)
  /-- A name that is neither bound nor that of a builtin. -/
  | notFound (name : String)
  /-- A value that was called and is no function. -/
  | notAFunction (callee : ValueType)
  /-- A call with another number of arguments than there are parameters. -/
  | badArity (expected got : Nat)
  /-- An argument that a builtin is not made for. -/
  | badArgument (builtin : Builtin) (got : ValueType)
  /-- A value that cannot be indexed, or not with this index. -/
  | notIndexable (base index : ValueType)
  /-- A value that cannot be a key of a map. -/
  | notHashable (key : ValueType)
  | divisionByZero
  deriving DecidableEq, Repr

namespace RuntimeError

/-- The text of an error. -/
def message : RuntimeError → String
  | unknownUnary op operand => "unknown operator: " ++ op.name ++ operand.name
  | unknownBinary left op right =>
    "unknown operator: " ++ left.name ++ " " ++ op.name ++ " " ++ right.name
  | typeMismatch left op right =>
    "type mismatch: " ++ left.name ++ " " ++ op.name ++ " " ++ right.name
  | notFound name => "identifier not found: " ++ name
  | notAFunction callee => "not a function: " ++ callee.name
  | badArity expected got =>
    "wrong number of arguments: expected " ++ toString expected ++ ", got " ++ toString got
  | badArgument builtin got =>
    "argument to `" ++ builtin.name ++ "` not supported, got " ++ got.name
  | notIndexable base index =>
    "index operator not supported: " ++ base.name ++ "[" ++ index.name ++ "]"
  | notHashable key => "unusable as hash key: " ++ key.name
  | divisionByZero => "division by zero"

end RuntimeError

/-- What a map files a pair under: the type of the key object and a digest of
    its contents. -/
structure HashKey where
  /-- The type of the key object. -/
  type : ValueType
  /-- The digest of its contents. -/
  digest : UInt64
  deriving DecidableEq, Repr

/-- A pair in a map. -/
structure Slot (α : Type) where
  /-- What the pair is filed under. -/
  hash : HashKey
  /-- The object that was given as the key. -/
  key : α
  /-- The object that the key leads to. -/
  value : α

/-- The number of an object, by which it is told from all others. -/
abbrev ObjectId := Nat

/-- The number of a scope. -/
abbrev ScopeId := Nat

/-- A value: an object with a number. -/
inductive Value where
  /-- A null. Only the shared one is ever made, see `Value.null`. -/
  | nullAt (id : ObjectId)
  /-- A truth value. Only the two shared ones are ever made, see `Value.bool`. -/
  | boolAt (id : ObjectId) (b : Bool)
  | int (id : ObjectId) (n : Int64)
  | str (id : ObjectId) (contents : String)
  | array (id : ObjectId) (elements : List Value)
  /-- A map; its slots are sorted by what they are filed under. -/
  | map (id : ObjectId) (slots : List (Slot Value))
  /-- A function and the scope it was made in. -/
  | fn (id : ObjectId) (params : List String) (body : Block) (scope : ScopeId)
  | builtin (id : ObjectId) (b : Builtin)
  /-- A value on its way out of a function or program. -/
  | returned (id : ObjectId) (inner : Value)
  /-- An error on its way out of everything. -/
  | error (id : ObjectId) (cause : RuntimeError)

namespace Value

/-- The shared null. -/
def null : Value :=
  .nullAt 0

/-- The shared truth values. -/
def bool (b : Bool) : Value :=
  .boolAt (if b then 1 else 2) b

/-- The objects that are there from the beginning, each at its number. -/
def shared : List Value :=
  [null, bool true, bool false]

instance : Inhabited Value := ⟨null⟩

/-- The type of a value. -/
def type : Value → ValueType
  | nullAt _ => .null
  | boolAt _ _ => .boolean
  | int _ _ => .integer
  | str _ _ => .string
  | array _ _ => .array
  | map _ _ => .map
  | fn _ _ _ _ => .function
  | builtin _ _ => .builtin
  | returned _ _ => .returned
  | error _ _ => .error

/-- The number of an object. -/
def number : Value → ObjectId
  | nullAt id => id
  | boolAt id _ => id
  | int id _ => id
  | str id _ => id
  | array id _ => id
  | map id _ => id
  | fn id _ _ _ => id
  | builtin id _ => id
  | returned id _ => id
  | error id _ => id

/-- Whether two values are one and the same object. -/
def same (v w : Value) : Bool :=
  v.number == w.number

/-- Whether a value is an error. -/
def isError : Value → Bool
  | error _ _ => true
  | _ => false

/-- Whether a value stops the evaluation that it occurs in. -/
def stops : Value → Bool
  | returned _ _ => true
  | error _ _ => true
  | _ => false

/-- Whether a value counts as true. Only false and null do not. -/
def truthy : Value → Bool
  | boolAt _ b => b
  | nullAt _ => false
  | _ => true

end Value

end Monkey
