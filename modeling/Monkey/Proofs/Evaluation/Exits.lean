import Monkey.Eval

/-!
# Evaluation With Exits

The meaning of programs, with exits in place of values that stop.

The evaluator passes a returned value or an error on by looking at every value
it gets. Here an expression either has a value or is left, and leaving it is
not a value at all: nothing that is written after an exit takes part in it,
because the order of evaluation alone decides what is skipped. No rule below
mentions an exit but those that make one and the two places that end one, the
call of a function and the program.

What operators, builtins and bindings do is shared with the evaluator. An
operator that makes an error is left with it, and a `return` is left with the
value it was given. It still takes the number that the evaluator spends on
wrapping the value, so that both number their objects alike.

A call ends in the scope it began in, however its body ended: it looks at how
the body ended, moves back and only then goes on or leaves.

## Main definitions

* `Exit`: The two ways to leave an evaluation.
* `Exits.Run`: An evaluation that can be left.
* `Exits.attempt`, `Exits.fail`, `Exits.leave`: What makes an exit.
* `Exits.expr`, `Exits.stmt`, `Exits.block`: The evaluation of syntax.
* `Exits.call`: The end of a `return`.
* `Exits.settle`, `Exits.program`: The end of every exit.
-/

namespace Monkey

/-- A way to leave an evaluation. -/
inductive Exit where
  /-- A function or program is left with a value. -/
  | returned (v : Value)
  /-- Everything is left because of an error. -/
  | failed (id : ObjectId) (cause : RuntimeError)

namespace Exits

/-- An evaluation that can be left. What was done to the store before stays
    done. -/
abbrev Run (α : Type) : Type :=
  ExceptT Exit Eval α

/-- Leaves with a new error. -/
def fail {α : Type} (cause : RuntimeError) : Run α := do
  let id ← Eval.newId
  throw (.failed id cause)

/-- Leaves with a value. -/
def leave {α : Type} (v : Value) : Run α := do
  -- The number that a wrapping of the value would take.
  let _ ← Eval.newId
  throw (.returned v)

/-- What an operation yields, unless it made an error. -/
def attempt (operation : Eval Value) : Run Value := do
  match ← operation with
  | .error id cause => throw (.failed id cause)
  | v => pure v

/-- Looks at how an evaluation ended, without being left itself. -/
def outcome {α : Type} (run : Run α) : Run (Except Exit α) :=
  ExceptT.lift run.run

/-- A call goes on where its body was left with a value. -/
def land : Except Exit Value → Run Value
  | .ok v => pure v
  | .error (.returned v) => pure v
  | .error exit => throw exit

/-- What calling a value yields. -/
def call (run : Block → Run Value) (callee : Value) (args : List Value) : Run Value :=
  match callee with
  | .fn _ params body outer =>
    if args.length = params.length then do
      let scope ← Eval.openScope outer
      Eval.bindAll scope (params.zip args)
      Eval.record (.called ((← get).depth scope))
      let caller ← Eval.enter scope
      -- The exit of a body is held back until the caller's scope is the current one again.
      let ended ← outcome (run body)
      let _ ← Eval.enter caller
      land ended
    else fail (.badArity params.length args.length)
  | .builtin _ b => do
    match ← b.apply args with
    | .ok v => return v
    | .error cause => fail cause
  | v => fail (.notAFunction v.type)

section

variable (run : Block → Run Value)

mutual

/-- The value of an expression. -/
def expr : Expr → Run Value
  | .ident name => attempt (Eval.ident name)
  | .int n => Eval.newInt n
  | .str contents => Eval.newStr contents
  | .bool b => pure (.bool b)
  | .unary op operand => do
    let v ← expr operand
    attempt (Eval.unary op v)
  | .binary op left right => do
    let v ← expr left
    let w ← expr right
    attempt (Eval.binary op v w)
  | .cond test consequence alternative => do
    let v ← expr test
    if v.truthy then block .null consequence
    else match alternative with
      | some d => block .null d
      | none => pure .null
  | .fn params body => Eval.closure params body
  | .call callee args => do
    let f ← expr callee
    let vs ← exprs args
    call run f vs
  | .array elements => do
    let vs ← exprs elements
    Eval.newArray vs
  | .index base key => do
    let v ← expr base
    let w ← expr key
    attempt (Eval.index v w)
  | .map ps => pairs [] ps

/-- The values of expressions from left to right. -/
def exprs : List Expr → Run (List Value)
  | [] => pure []
  | e :: es => do
    let v ← expr e
    let vs ← exprs es
    return v :: vs

/-- The map that given slots and further pairs make up. -/
def pairs (slots : List (Slot Value)) : List (Expr × Expr) → Run Value
  | [] => Eval.newMap slots
  | (key, value) :: ps => do
    let k ← expr key
    match k.hashKey? with
    | none => fail (.notHashable k.type)
    | some hash =>
      let v ← expr value
      pairs (Slots.insert ⟨hash, k, v⟩ slots) ps

/-- The value of a statement. -/
def stmt : Stmt → Run Value
  | .bind name value => do
    let v ← expr value
    Eval.bind name v
    return .null
  | .ret value => do
    let v ← expr value
    leave v
  | .expr value => expr value

/-- The value of the last statement of a block, or the given one. -/
def block (last : Value) : List Stmt → Run Value
  | [] => pure last
  | s :: ss => do
    let v ← stmt s
    block v ss

end

/-- The value of the last statement of a program, or the given one. -/
def statements (last : Option Value) : Block → Run (Option Value)
  | [] => pure last
  | s :: ss => do
    let v ← stmt run s
    statements (some v) ss

end

/-- How a body is run if calls may nest to the given depth below it. -/
def body : Nat → Block → Run Value
  | 0, _ => ExceptT.mk Eval.tooDeep
  | limit + 1, ss => block (body limit) .null ss

/-- What a program comes to. If it was left with a value then that is its
    value; an error that ended it is recorded. -/
def settle : Except Exit (Option Value) → Eval (Option Value)
  | .ok result => return result
  | .error (.returned v) => return some v
  | .error (.failed id cause) => do
    Eval.record (.stopped cause)
    return some (.error id cause)

/-- The value of a program in a scope, whose calls may nest to the given
    depth. -/
def program (limit : Nat) (scope : ScopeId) (ss : Block) : Eval (Option Value) := do
  let _ ← Eval.enter scope
  settle (← (statements (body limit) none ss).run)

end Exits

end Monkey
