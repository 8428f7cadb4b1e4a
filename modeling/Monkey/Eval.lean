import Monkey.Eval.Builtin
import Monkey.Eval.Operator

/-!
# Evaluating Programs

What expressions, statements and programs do.

Evaluation goes from left to right. A value that stops is handed on from
wherever it turns up: nothing to its right is evaluated, and what was done
before it stays done. An error goes all the way up. A returned value is
caught in two places, where a call ends and where a program ends, and each
of the two takes off exactly one wrapping; there is only one, since a
statement does not wrap a value that stops already.

Everything is evaluated in the current scope of the store. A call opens a new
scope, moves to it for the body of the function and moves back when the body
has been run, be its value an error or not. The new scope is enclosed by the
one the function was made in and not by the caller's, so the names in a body
mean what they meant where it was written. Branches of a condition have no
scope of their own.

The functions on syntax recurse on the syntax. Only a call leads away from
it, to the body of a function that was made elsewhere; how a body is run is
therefore a parameter, and `Eval.body` supplies it with a limit on how deeply
calls may nest. Builtins do not count against the limit.

## Main definitions

* `Expr.eval`, `Stmt.eval`, `Block.eval`: The evaluation of syntax.
* `Eval.call`: A value called with arguments.
* `Eval.body`: How the body of a function is run.
* `Program.eval`: The evaluation of a whole program.

## Theorems

* `Program.evalFrom_last`: The value before some statements.
-/

namespace Monkey

/-- How the body of a function is run, once its scope is the current one. -/
abbrev BodyRunner : Type :=
  Block → Eval Value

namespace Eval

/-- What a name stands for: its binding, or else the builtin of that name. -/
def ident (name : String) : Eval Value := do
  let store ← get
  -- A binding hides the builtin of its name.
  match store.get? store.current name with
  | some v => return v
  | none =>
    match Builtin.ofName? name with
    | some b => newBuiltin b
    | none => newError (.notFound name)

/-- Makes a function that remembers the current scope. -/
def closure (params : List String) (body : Block) : Eval Value := do
  newFn params body (← get).current

/-- Binds a name in the current scope. -/
def bind (name : String) (v : Value) : Eval Unit :=
  modify fun store => store.set store.current name v

/-- Makes a scope for a call, enclosed by the scope of the function. -/
def openScope (outer : ScopeId) : Eval ScopeId :=
  fun store => some (store.addScope (some outer))

/-- Binds parameters to arguments in a scope, from the first to the last. -/
def bindAll (scope : ScopeId) : List (String × Value) → Eval Unit
  | [] => pure ()
  | (name, v) :: rest => do
    modify fun store => store.set scope name v
    bindAll scope rest

/-- Moves to a scope and tells which one was current before. -/
def enter (scope : ScopeId) : Eval ScopeId :=
  fun store => some (store.current, store.enter scope)

/-- A value that left a function has arrived; any other value is as it was. -/
def arrived : Value → Value
  | .returned _ inner => inner
  | v => v

/-- What calling a value yields. -/
def call (run : BodyRunner) (callee : Value) (args : List Value) : Eval Value :=
  match callee with
  | .fn _ params body outer =>
    if args.length = params.length then do
      let scope ← openScope outer
      bindAll scope (params.zip args)
      record (.called ((← get).depth scope))
      -- Between the two moves nothing is asked about the value, so no way out skips the second.
      let caller ← enter scope
      let v ← run body
      let _ ← enter caller
      return arrived v
    else newError (.badArity params.length args.length)
  | .builtin _ b => do
    match ← b.apply args with
    | .ok v => return v
    | .error cause => newError cause
  | v => newError (.notAFunction v.type)

end Eval

section

variable (run : BodyRunner)

mutual

/-- The value of an expression. -/
def Expr.eval : Expr → Eval Value
  | .ident name => Eval.ident name
  | .int n => Eval.newInt n
  | .str contents => Eval.newStr contents
  | .bool b => pure (.bool b)
  | .unary op operand => operand.eval.unlessStopped (Eval.unary op)
  | .binary op left right =>
    left.eval.unlessStopped fun l =>
      right.eval.unlessStopped fun r => Eval.binary op l r
  | .cond test consequence alternative =>
    test.eval.unlessStopped fun v =>
      if v.truthy then Block.eval .null consequence
      else match alternative with
        | some block => Block.eval .null block
        | none => pure .null
  | .fn params body => Eval.closure params body
  | .call callee args =>
    callee.eval.unlessStopped fun f => do
      match ← Expr.evalList args with
      | .ok vs => Eval.call run f vs
      | .error v => return v
  | .array elements => do
    match ← Expr.evalList elements with
    | .ok vs => Eval.newArray vs
    | .error v => return v
  | .index base key =>
    base.eval.unlessStopped fun b =>
      key.eval.unlessStopped fun k => Eval.index b k
  | .map pairs => Expr.evalPairs [] pairs

/-- The values of expressions from left to right, or the first value that
    stops. -/
def Expr.evalList : List Expr → Eval (Except Value (List Value))
  | [] => pure (.ok [])
  | e :: es => do
    let v ← e.eval
    if v.stops then return .error v
    else
      match ← Expr.evalList es with
      | .ok vs => return .ok (v :: vs)
      | .error w => return .error w

/-- The map that given slots and further pairs make up. A key is judged
    before the value that goes with it is evaluated. -/
def Expr.evalPairs (slots : List (Slot Value)) :
    List (Expr × Expr) → Eval Value
  | [] => Eval.newMap slots
  | (key, value) :: pairs =>
    key.eval.unlessStopped fun k =>
      -- A key that is refused stops the map before its value has printed anything.
      match k.hashKey? with
      | none => Eval.newError (.notHashable k.type)
      | some hash =>
        value.eval.unlessStopped fun v =>
          Expr.evalPairs (Slots.insert ⟨hash, k, v⟩ slots) pairs

/-- The value of a statement. Binding a name yields null. -/
def Stmt.eval : Stmt → Eval Value
  | .bind name value =>
    value.eval.unlessStopped fun v => do
      Eval.bind name v
      return .null
  | .ret value => value.eval.unlessStopped Eval.newReturned
  | .expr value => value.eval

/-- The value of the last statement of a block, or of the first one that
    stops. The given value is that of the statements before. -/
def Block.eval (last : Value) : List Stmt → Eval Value
  | [] => pure last
  | s :: ss => s.eval.unlessStopped fun v => Block.eval v ss

end

/-- The value of a program: that of its last statement, unless one stops
    before. A program without statements has none. -/
def Program.evalFrom (last : Option Value) : Block → Eval (Option Value)
  | [] => pure last
  | s :: ss => do
    let v ← s.eval run
    match v with
    -- Here and at the end of a call a wrapping is taken off; a block hands it on.
    | .returned _ inner => return some inner
    | .error _ cause =>
      Eval.record (.stopped cause)
      return some v
    | v => Program.evalFrom (some v) ss

/-- The value before some statements is their value if there are none. -/
theorem Program.evalFrom_last (last : Option Value) (ss : Block) (s : Store) :
    Program.evalFrom run last ss s
      = (Program.evalFrom run none ss s).map fun r => (if ss = [] then last else r.1, r.2) := by
  cases ss with
  | nil => rfl
  | cons st ss =>
      simp only [reduceCtorEq, if_false]
      exact (congrFun Option.map_id _).symm

end

namespace Eval

/-- How a body is run if calls may nest to the given depth below it. -/
def body : Nat → BodyRunner
  | 0, _ => tooDeep
  | limit + 1, block => Block.eval (body limit) .null block

end Eval

/-- The value of a program in a scope, whose calls may nest to the given
    depth. -/
def Program.eval (limit : Nat) (scope : ScopeId) (program : Block) : Eval (Option Value) := do
  let _ ← Eval.enter scope
  Program.evalFrom (Eval.body limit) none program

end Monkey
