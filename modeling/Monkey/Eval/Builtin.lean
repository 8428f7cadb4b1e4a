import Monkey.Eval.Basic
import Monkey.Value.Printer

/-!
# Builtins

What the functions do that exist without being bound.

Each but `puts` takes a fixed number of arguments, and the number is checked
before anything else. Arrays are never changed: `rest` and `push` make a new
one that shares the elements. The length of a string is counted in bytes of
its UTF-8 encoding.

A builtin either yields a value or refuses its arguments with a cause. The
two are kept apart here, because a value that it yields may well be an error
object: one that was an element of an array, for instance.

## Main definitions

* `Builtin.apply`: A builtin applied to arguments.
-/

namespace Monkey

namespace Builtin

/-- A value, or the cause for which arguments were refused. -/
abbrev Answer : Type :=
  Except RuntimeError Value

/-- Refuses the arguments. -/
def refuse (cause : RuntimeError) : Eval Answer :=
  return .error cause

/-- Yields what an evaluation yields. -/
def yielding (value : Eval Value) : Eval Answer := do
  return .ok (← value)

/-- Goes on with the only argument. -/
def withOne (args : List Value) (next : Value → Eval Answer) : Eval Answer :=
  match args with
  | [v] => next v
  | _ => refuse (.badArity 1 args.length)

/-- Goes on with the elements of the only argument, which has to be an
    array. -/
def withElements (b : Builtin) (args : List Value) (next : List Value → Eval Answer) :
    Eval Answer :=
  withOne args fun
    | .array _ elements => next elements
    | v => refuse (.badArgument b v.type)

/-- Prints each value on a line of its own. -/
def printAll : List Value → Eval Unit
  | [] => pure ()
  | v :: vs => do
    Eval.printLine v.text
    printAll vs

/-- What a builtin yields for the given arguments. -/
def apply (b : Builtin) (args : List Value) : Eval Answer :=
  match b with
  | len => withOne args fun
    | .str _ contents => yielding (Eval.newInt (Int64.ofNat contents.utf8ByteSize))
    | .array _ elements => yielding (Eval.newInt (Int64.ofNat elements.length))
    | v => refuse (.badArgument len v.type)
  | type => withOne args fun v => yielding (Eval.newStr v.type.name)
  | first => withElements first args fun elements => return .ok (elements.head?.getD .null)
  | last => withElements last args fun elements => return .ok (elements.getLast?.getD .null)
  | rest => withElements rest args fun
    | [] => return .ok .null
    | _ :: elements => yielding (Eval.newArray elements)
  | push =>
    match args with
    | [.array _ elements, v] => yielding (Eval.newArray (elements ++ [v]))
    | [v, _] => refuse (.badArgument push v.type)
    | _ => refuse (.badArity 2 args.length)
  | puts => do
    printAll args
    return .ok .null

end Builtin

end Monkey
