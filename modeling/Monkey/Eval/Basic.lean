import Monkey.Store

/-!
# Evaluations

What an evaluation is: a computation that reads and changes the store.

Programs may run forever, so an evaluation is given a limit on how deeply
calls may nest, and it has no result if it meets the limit. Everything else
that can go wrong is a value, an error, and is found in the result.

Making an object takes a number from the store. The functions below are the
only ones that do, so every object is made with a number of its own.

## Main definitions

* `Eval`: An evaluation, a monad.
* `Eval.newInt` and the like: Evaluations that make an object.
* `Eval.unlessStopped`: One evaluation after another, unless the first one
  stops.
-/

namespace Monkey

/-- A computation on the store. There is no result if calls nest too
    deeply. -/
abbrev Eval (α : Type) : Type :=
  StateT Store Option α

namespace Eval

/-- Gives up because calls nest too deeply. -/
def tooDeep {α : Type} : Eval α :=
  fun _ => none

/-- Takes the number of a new object. -/
def newId : Eval ObjectId :=
  fun store => some (store.nextId, { store with nextId := store.nextId + 1 })

/-- Makes an integer. -/
def newInt (n : Int64) : Eval Value := do
  return .int (← newId) n

/-- Makes a string. -/
def newStr (contents : String) : Eval Value := do
  return .str (← newId) contents

/-- Makes an array. -/
def newArray (elements : List Value) : Eval Value := do
  return .array (← newId) elements

/-- Makes a map. -/
def newMap (slots : List (Slot Value)) : Eval Value := do
  return .map (← newId) slots

/-- Makes a function. -/
def newFn (params : List String) (body : Block) (scope : ScopeId) : Eval Value := do
  return .fn (← newId) params body scope

/-- Makes a function value of a builtin. -/
def newBuiltin (b : Builtin) : Eval Value := do
  return .builtin (← newId) b

/-- Wraps a value that leaves a function or program. -/
def newReturned (inner : Value) : Eval Value := do
  return .returned (← newId) inner

/-- Makes an error. -/
def newError (cause : RuntimeError) : Eval Value := do
  return .error (← newId) cause

/-- Prints a line. -/
def printLine (line : String) : Eval Unit :=
  fun store => some ((), { store with output := store.output ++ line ++ "\n" })

/-- Records an event. -/
def record (event : Event) : Eval Unit :=
  fun store => some ((), { store with journal := event :: store.journal })

/-- Goes on with the value of an evaluation, unless the value stops
    everything; then it is the result. -/
def unlessStopped (first : Eval Value) (next : Value → Eval Value) : Eval Value := do
  let v ← first
  if v.stops then return v else next v

end Eval

end Monkey
