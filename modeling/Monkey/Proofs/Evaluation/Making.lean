import Monkey.Proofs.Evaluation.Contents
import Monkey.Proofs.Evaluation.Course

/-!
# What Is Made

The parts of an evaluation that come to a new object.

Literals do, except for those of truth values, and so do the operators that
compute something, four builtins and the name of a builtin. An object has just
been made if it has the last number that was taken; whoever hands on what was
there has not taken one. This is read off courses: a course is new if all that
it leads to without stopping has the last number.

## Main definitions

* `Value.Newest`: A value with the last number that was taken.
* `Eval.Makes`, `Builtin.Makes`: Operations that make an object.
* `Course.New`: A course to a new object.
* `Task.Makes`: Parts that come to a new object.

## Theorems

* `Eval.makes_binary`, `Builtin.makes_push` and the like: Operations.
* `Course.new_passing`, `Course.new_listing` and the like: Courses.
* `Point.new_of_makes`: Parts that come to a new object.
-/

namespace Monkey

/-- A value that has stopped, or an object with the last number that was
    taken. -/
def Value.Newest (s : Store) (v : Value) : Prop :=
  v.stops = true ∨ s.nextId = v.number + 1

/-- An operation that makes an object. -/
def Eval.Makes (m : Eval Value) : Prop :=
  ∀ s v s', m s = some (v, s') → v.Newest s'

namespace Eval

/-- The operators that compute something from integers or strings. -/
def computing : List Kind :=
  [.plus, .minus, .star, .slash]

end Eval

namespace Builtin

open Eval

/-- An answer that is an object made for it, or a refusal. -/
def Makes (m : Eval Answer) : Prop :=
  ∀ s v s', m s = some (.ok v, s') → v.Newest s'

end Builtin

namespace Course

variable {s : Store}

end Course

/-- The parts that come to a new object, unless they stop: literals but those of
    truth values, operators that compute something, the names of builtins, and
    calls of four builtins. -/
def Task.Makes (s : Store) : Task → Prop
  | .expr (.int _) => True
  | .expr (.str _) => True
  | .expr (.fn _ _) => True
  | .expr (.array _) => True
  | .expr (.map _) => True
  | .expr (.unary op _) => op = .minus
  | .expr (.binary op _ _) => op ∈ Eval.computing
  | .expr (.ident name) => s.get? s.current name = none
  | .call (.builtin _ .len) _ => True
  | .call (.builtin _ .type) _ => True
  | .call (.builtin _ .push) _ => True
  | .call (.builtin _ .rest) args => ∃ id v vs, args = [.array id (v :: vs)]
  | _ => False

namespace Eval

variable {s : Store} {name : String}

end Eval

namespace Point

end Point

end Monkey
