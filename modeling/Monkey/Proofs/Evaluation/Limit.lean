import Monkey.Eval

/-!
# The Limit on Calls

A result does not depend on the limit at which it was found.

How deeply calls may nest is no part of the language; the limit is there so
that an evaluation is a function. That is harmless if a higher limit can only
add results and never change one, and then it makes sense to say of a program
that it terminates: there is a limit at which it has a result, and that is its
result at every limit at which it has one.

The limit is used in one place, where the body of a function is run. Everything
else hands on what it is given, so it is enough that evaluation is monotone in
the way bodies are run.

## Main definitions

* `Eval.Below`: An evaluation has all results that another one has.

## Theorems

* `Eval.Below.bind`, `Eval.Below.unlessStopped`: One evaluation after another.
* `Eval.call_below`: Calls.
* `Eval.expr_below` and the like: Syntax.
* `Eval.body_mono`: The bodies of functions at a higher limit.
* `Program.eval_mono`: Programs at a higher limit.
* `Program.eval_unique`: The result of a program.
-/

namespace Monkey

namespace Eval

variable {α β : Type}

/-- Whatever the first evaluation results in, so does the second one. -/
def Below (m m' : Eval α) : Prop :=
  ∀ s r, m s = some r → m' s = some r

theorem Below.refl (m : Eval α) : Below m m :=
  fun _ _ h => h

theorem Below.trans {m m' m'' : Eval α} (h : Below m m') (h' : Below m' m'') : Below m m'' :=
  fun s r hr => h' s r (h s r hr)

theorem Below.bind {m m' : Eval α} {f f' : α → Eval β} (hm : Below m m')
    (hf : ∀ a, Below (f a) (f' a)) : Below (m >>= f) (m' >>= f') := by
  intro s r h
  rcases Option.bind_eq_some_iff.mp h with ⟨⟨a, s'⟩, hfirst, hrest⟩
  exact Option.bind_eq_some_iff.mpr ⟨(a, s'), hm s (a, s') hfirst, hf a s' r hrest⟩

theorem Below.unlessStopped {m m' : Eval Value} {f f' : Value → Eval Value} (hm : Below m m')
    (hf : ∀ v, Below (f v) (f' v)) : Below (m.unlessStopped f) (m'.unlessStopped f') := by
  refine hm.bind fun v => ?_
  by_cases hstops : v.stops = true
  · rw [if_pos hstops, if_pos hstops]
    exact .refl _
  · rw [if_neg hstops, if_neg hstops]
    exact hf v

variable {run run' : BodyRunner}

/-- A call has more results if bodies have more. -/
theorem call_below (hrun : ∀ body, Below (run body) (run' body)) (callee : Value)
    (args : List Value) : Below (call run callee args) (call run' callee args) := by
  cases callee with
  | fn id params body outer =>
      unfold call
      by_cases hlen : args.length = params.length
      · simp only [if_pos hlen]
        -- The body is run between two parts of the call that do not depend on it.
        refine (Below.refl _).bind fun scope => (Below.refl _).bind fun _ => ?_
        refine (Below.refl _).bind fun store => (Below.refl _).bind fun _ => ?_
        exact (Below.refl _).bind fun caller => (hrun body).bind fun v => .refl _
      · simp only [if_neg hlen]
        exact .refl _
  | _ => exact .refl _

mutual

/-- Expressions have more results if bodies have more. -/
theorem expr_below (hrun : ∀ body, Below (run body) (run' body)) :
    ∀ e : Expr, Below (e.eval run) (e.eval run')
  | .ident _ | .int _ | .str _ | .bool _ | .fn _ _ => .refl _
  | .unary _ operand => (expr_below hrun operand).unlessStopped fun _ => .refl _
  | .binary _ left right =>
    (expr_below hrun left).unlessStopped fun _ =>
      (expr_below hrun right).unlessStopped fun _ => .refl _
  | .cond test consequence none =>
    (expr_below hrun test).unlessStopped fun v => by
      split
      · exact block_below hrun consequence .null
      · exact .refl _
  | .cond test consequence (some alternative) =>
    (expr_below hrun test).unlessStopped fun v => by
      split
      · exact block_below hrun consequence .null
      · exact block_below hrun alternative .null
  | .call callee args =>
    (expr_below hrun callee).unlessStopped fun f =>
      (list_below hrun args).bind fun found => by
        cases found with
        | ok vs => exact call_below hrun f vs
        | error v => exact .refl _
  | .array elements => (list_below hrun elements).bind fun _ => .refl _
  | .index base key =>
    (expr_below hrun base).unlessStopped fun _ =>
      (expr_below hrun key).unlessStopped fun _ => .refl _
  | .map pairs => pairs_below hrun pairs []

/-- Lists of expressions have more results if bodies have more. -/
theorem list_below (hrun : ∀ body, Below (run body) (run' body)) :
    ∀ es : List Expr, Below (Expr.evalList run es) (Expr.evalList run' es)
  | [] => .refl _
  | e :: es =>
    (expr_below hrun e).bind fun v => by
      split
      · exact .refl _
      · exact (list_below hrun es).bind fun _ => .refl _

/-- The pairs of a map have more results if bodies have more. -/
theorem pairs_below (hrun : ∀ body, Below (run body) (run' body)) :
    ∀ (pairs : List (Expr × Expr)) (slots : List (Slot Value)),
      Below (Expr.evalPairs run slots pairs) (Expr.evalPairs run' slots pairs)
  | [], _ => .refl _
  | (key, value) :: pairs, slots =>
    (expr_below hrun key).unlessStopped fun k => by
      split
      · exact .refl _
      · exact (expr_below hrun value).unlessStopped fun v => pairs_below hrun pairs _

/-- Statements have more results if bodies have more. -/
theorem stmt_below (hrun : ∀ body, Below (run body) (run' body)) :
    ∀ st : Stmt, Below (st.eval run) (st.eval run')
  | .bind _ value => (expr_below hrun value).unlessStopped fun _ => .refl _
  | .ret value => (expr_below hrun value).unlessStopped fun _ => .refl _
  | .expr value => expr_below hrun value

/-- Blocks have more results if bodies have more. -/
theorem block_below (hrun : ∀ body, Below (run body) (run' body)) :
    ∀ (ss : List Stmt) (last : Value), Below (Block.eval run last ss) (Block.eval run' last ss)
  | [], _ => .refl _
  | st :: ss, _ => (stmt_below hrun st).unlessStopped fun v => block_below hrun ss v

end

/-- One more nested call may add results. -/
theorem body_below_succ (limit : Nat) :
    ∀ block, Below (body limit block) (body (limit + 1) block) := by
  induction limit with
  | zero =>
      intro block s r h
      -- At no depth at all there is no result to begin with.
      exact absurd h (by simp only [body, tooDeep, reduceCtorEq, not_false_eq_true])
  | succ limit ih => exact fun block => block_below ih block .null

/-- The bodies of functions have the results at a higher limit that they have
    at a lower one. -/
theorem body_mono {limit limit' : Nat} (h : limit ≤ limit') (block : Block) :
    Below (body limit block) (body limit' block) := by
  induction h with
  | refl => exact .refl _
  | step _ ih => exact ih.trans (body_below_succ _ block)

theorem evalFrom_below (hrun : ∀ body, Below (run body) (run' body)) (ss : Block) :
    ∀ last, Below (Program.evalFrom run last ss) (Program.evalFrom run' last ss) := by
  induction ss with
  | nil => exact fun _ => .refl _
  | cons st ss ih =>
      intro last
      refine (stmt_below hrun st).bind fun v => ?_
      cases v with
      | returned _ _ | error _ _ => exact .refl _
      | _ => exact ih _

end Eval

namespace Program

/-- A result of a program is its result at every higher limit. -/
theorem eval_mono {limit limit' : Nat} (h : limit ≤ limit') (scope : ScopeId) (program : Block) :
    Eval.Below (Program.eval limit scope program) (Program.eval limit' scope program) :=
  (Eval.Below.refl _).bind fun _ => Eval.evalFrom_below (Eval.body_mono h) program none

/-- A program has one result, whatever the limits at which it was found. -/
theorem eval_unique {limit limit' : Nat} {scope : ScopeId} {program : Block} {s : Store}
    {r r' : Option Value × Store} (h : Program.eval limit scope program s = some r)
    (h' : Program.eval limit' scope program s = some r') : r = r' := by
  rcases Nat.le_total limit limit' with hle | hle
  · exact Option.some.inj ((eval_mono hle scope program s r h).symm.trans h')
  · exact Option.some.inj (h.symm.trans (eval_mono hle scope program s r' h'))

end Program

end Monkey
