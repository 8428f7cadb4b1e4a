import Mathlib.Order.WellFounded
import Monkey.Proofs.Evaluation.Limit
import Monkey.Proofs.Evaluation.Parts

/-!
# Evaluations Without a Result

A program without a result goes on forever, and nothing else does.

At a single limit, having no result means that calls nest too deeply, and a
higher limit may do. If no limit does, the program has parts without end: one
part that begins another one, which begins a third one, and so on. This says
about `Begins` that it leaves nothing out that an evaluation could be stuck
in. A program with a result has no such chain of parts, so `Begins` does not
add anything to an evaluation either.

In one direction, what is done to a store by anything but the body of a
function has a result in any case, so a task has a result if the tasks have
one that it consists of. Each of them has one at a limit of its own, and at
the highest of these limits all of them have theirs. In the other direction,
parts of a part with a result have results at the same limit and are smaller,
except for the body of a function: the limit for that is lower.

## Main definitions

* `Eval.Rising`: Evaluations that keep their results at higher limits.
* `Eval.Settles`: An evaluation with a result at some limit.
* `Point.Ends`, `Point.EndsAt`: A part with a result.

## Theorems

* `Eval.Settles.bind`, `Eval.Settles.unlessStopped`: One evaluation after
  another.
* `Point.ends_of_begins`: A part ends if the parts end that it begins.
* `Point.EndsAt.begins`, `Point.EndsAt.begins_body`: The parts of a part that
  ends.
* `Point.ends_iff_acc`: A part ends if it has no parts without end.
* `Store.run_eq_none_iff`: A program without a report goes on forever.
-/

namespace Monkey

namespace Eval

variable {α β : Type} {s : Store}

/-- Among evaluations with rising limits, the higher ones have the results of
    the lower ones. -/
def Rising (m : Nat → Eval α) : Prop :=
  ∀ n n', n ≤ n' → Below (m n) (m n')

/-- There is a limit at which an evaluation from a store has a result. -/
def Settles (m : Nat → Eval α) (s : Store) : Prop :=
  ∃ n r, m n s = some r

theorem Simple.settles {m : Eval α} (h : Simple m) (s : Store) : Settles (fun _ => m) s := by
  rcases h.result s with ⟨a, s', hresult, -⟩
  exact ⟨0, (a, s'), hresult⟩

/-- One evaluation after another has a result at the higher one of their two
    limits. -/
theorem Settles.bind {m : Nat → Eval α} {f : Nat → α → Eval β} (hm : Settles m s)
    (hrise : Rising m) (hrises : ∀ a, Rising fun n => f n a)
    (hf : ∀ n a s', m n s = some (a, s') → Settles (fun n => f n a) s') :
    Settles (fun n => m n >>= f n) s := by
  rcases hm with ⟨n, ⟨a, s'⟩, hfirst⟩
  rcases hf n a s' hfirst with ⟨n', r, hrest⟩
  refine ⟨max n n', r, Option.bind_eq_some_iff.mpr ⟨(a, s'), ?_, ?_⟩⟩
  · exact hrise n _ (Nat.le_max_left n n') s _ hfirst
  · exact hrises a n' _ (Nat.le_max_right n n') s' r hrest

theorem rising_const (m : Eval α) : Rising fun _ => m :=
  fun _ _ _ => .refl m

theorem Rising.branch {m m' : Nat → Eval α} {c : Bool} (hm : Rising m) (hm' : Rising m') :
    Rising fun n => if c = true then m n else m' n := by
  cases c with
  | true => exact hm
  | false => exact hm'

theorem Settles.branch {m m' : Nat → Eval α} {c : Bool} (hm : c = true → Settles m s)
    (hm' : c = false → Settles m' s) : Settles (fun n => if c = true then m n else m' n) s := by
  cases c with
  | true => exact hm rfl
  | false => exact hm' rfl

/-- If the first value stops then nothing else needs a result. -/
theorem Settles.unlessStopped {m : Nat → Eval Value} {f : Nat → Value → Eval Value}
    (hm : Settles m s) (hrise : Rising m) (hrises : ∀ v, Rising fun n => f n v)
    (hf : ∀ n v s', m n s = some (v, s') → v.stops = false → Settles (fun n => f n v) s') :
    Settles (fun n => (m n).unlessStopped (f n)) s := by
  refine hm.bind hrise (fun v => (rising_const _).branch (hrises v)) fun n v s' hfirst => ?_
  exact .branch (fun _ => (Simple.pure v).settles s') (hf n v s' hfirst)

theorem Rising.unlessStopped {m : Nat → Eval Value} {f : Nat → Value → Eval Value}
    (hm : Rising m) (hf : ∀ v, Rising fun n => f n v) :
    Rising fun n => (m n).unlessStopped (f n) :=
  fun n n' hle => (hm n n' hle).unlessStopped fun v => hf v n n' hle

/-- The results at two limits are the same. -/
theorem Rising.unique {m : Nat → Eval α} (h : Rising m) {n n' : Nat} {r r' : α × Store}
    (hr : m n s = some r) (hr' : m n' s = some r') : r = r' := by
  have hmax : m (max n n') s = some r := h n _ (Nat.le_max_left n n') s r hr
  have hmax' : m (max n n') s = some r' := h n' _ (Nat.le_max_right n n') s r' hr'
  exact Option.some.inj (hmax.symm.trans hmax')

/-- What is evaluated first has a result if everything has. -/
theorem ends_first {m : Eval α} {f : α → Eval β} (h : ∃ r, (m >>= f) s = some r) :
    ∃ r, m s = some r := by
  rcases h with ⟨r, h⟩
  rcases Option.bind_eq_some_iff.mp h with ⟨p, hfirst, -⟩
  exact ⟨p, hfirst⟩

/-- So has what is evaluated next, from the store that was left behind. At
    which limit that store was found makes no difference. -/
theorem Rising.ends_next {m : Nat → Eval α} (hm : Rising m) {f : α → Eval β} {n n' : Nat} {a : α}
    {s' : Store} (h : ∃ r, (m n >>= f) s = some r) (ha : m n' s = some (a, s')) :
    ∃ r, f a s' = some r := by
  rcases h with ⟨r, h⟩
  rcases Option.bind_eq_some_iff.mp h with ⟨p, hfirst, hrest⟩
  obtain rfl : p = (a, s') := hm.unique hfirst ha
  exact ⟨r, hrest⟩

theorem Rising.ends_unlessStopped {m : Nat → Eval Value} (hm : Rising m) {f : Value → Eval Value}
    {n n' : Nat} {v : Value} {s' : Store} (h : ∃ r, (m n).unlessStopped f s = some r)
    (hv : m n' s = some (v, s')) (hstops : v.stops = false) : ∃ r, f v s' = some r := by
  have hnext := hm.ends_next h hv
  simp only [hstops] at hnext
  exact hnext

theorem rising_expr (e : Expr) : Rising fun n => e.eval (body n) :=
  fun _ _ hle => expr_below (body_mono hle) e

theorem rising_list (es : List Expr) : Rising fun n => Expr.evalList (body n) es :=
  fun _ _ hle => list_below (body_mono hle) es

theorem rising_pairs (slots : List (Slot Value)) (ps : List (Expr × Expr)) :
    Rising fun n => Expr.evalPairs (body n) slots ps :=
  fun _ _ hle => pairs_below (body_mono hle) ps slots

theorem rising_stmt (st : Stmt) : Rising fun n => st.eval (body n) :=
  fun _ _ hle => stmt_below (body_mono hle) st

theorem rising_block (last : Value) (ss : List Stmt) :
    Rising fun n => Block.eval (body n) last ss :=
  fun _ _ hle => block_below (body_mono hle) ss last

theorem rising_call (f : Value) (args : List Value) : Rising fun n => call (body n) f args :=
  fun _ _ hle => call_below (body_mono hle) f args

end Eval

open Eval

/-- The value before some statements does not matter to them. -/
theorem Eval.ends_from {run : BodyRunner} {s : Store} {ss : Block} {last last' : Option Value}
    (h : ∃ r, Program.evalFrom run last ss s = some r) :
    ∃ r, Program.evalFrom run last' ss s = some r := by
  cases ss with
  | nil => exact ⟨_, rfl⟩
  | cons st ss => exact h

/-- Something holds of what a part does in its store, at all limits taken
    together. -/
def Point.Does (P : ∀ {α : Type}, (Nat → Eval α) → Store → Prop) (p : Point) : Prop :=
  match p.task with
  | .expr e => P (fun n => e.eval (body n)) p.store
  | .list es => P (fun n => Expr.evalList (body n) es) p.store
  | .pairs slots ps => P (fun n => Expr.evalPairs (body n) slots ps) p.store
  | .stmt st => P (fun n => st.eval (body n)) p.store
  | .block last ss => P (fun n => Block.eval (body n) last ss) p.store
  | .call f args => P (fun n => Eval.call (body n) f args) p.store
  -- The value before the statements is not asked about by any of them.
  | .statements ss => P (fun n => Program.evalFrom (body n) none ss) p.store

/-- There is a limit at which a part has a result. -/
def Point.Ends (p : Point) : Prop :=
  p.Does Settles

/-- A part has a result at a certain limit. -/
def Point.EndsAt (limit : Nat) (p : Point) : Prop :=
  p.Does fun m s => ∃ r, m limit s = some r

namespace Point

variable {s : Store}

theorem ends_expr (e : Expr) (h : ∀ q, Begins ⟨.expr e, s⟩ q → q.Ends) :
    Point.Ends ⟨.expr e, s⟩ := by
  cases e with
  | ident name => exact (simple_ident name).settles s
  | int n => exact (simple_new fun id => .int id n).settles s
  | str contents => exact (simple_new fun id => .str id contents).settles s
  | bool b => exact (Simple.pure _).settles s
  | fn params b => exact (simple_closure params b).settles s
  | unary op e =>
      refine (h ⟨.expr e, s⟩ .operand).unlessStopped (rising_expr e) (fun v => rising_const _) ?_
      exact fun n v s' _ _ => (simple_unary op v).settles s'
  | binary op e f =>
      refine (h ⟨.expr e, s⟩ .left).unlessStopped (rising_expr e)
        (fun v => (rising_expr f).unlessStopped fun w => rising_const _) ?_
      intro n v s₁ hv hstops
      refine (h ⟨.expr f, s₁⟩ (.right ⟨⟨n, hv⟩, hstops⟩)).unlessStopped (rising_expr f)
        (fun w => rising_const _) ?_
      exact fun n w s₂ _ _ => (simple_binary op v w).settles s₂
  | cond e c d =>
      -- Whichever branch is chosen, it is one that begins.
      have htaken : ∀ n v s₁, e.eval (body n) s = some (v, s₁) → v.stops = false →
          v.truthy = true → Settles (fun n => Block.eval (body n) .null c) s₁ :=
        fun n v s₁ hv hstops htrue =>
          h ⟨.block .null c, s₁⟩ (.consequence ⟨⟨n, hv⟩, hstops⟩ htrue)
      cases d with
      | none =>
          refine (h ⟨.expr e, s⟩ .test).unlessStopped (rising_expr e)
            (fun v => (rising_block .null c).branch (rising_const _)) fun n v s₁ hv hstops => ?_
          exact .branch (htaken n v s₁ hv hstops) fun _ => (Simple.pure _).settles s₁
      | some d =>
          refine (h ⟨.expr e, s⟩ .test).unlessStopped (rising_expr e)
            (fun v => (rising_block .null c).branch (rising_block .null d))
            fun n v s₁ hv hstops => ?_
          exact .branch (htaken n v s₁ hv hstops) fun hfalse =>
            h ⟨.block .null d, s₁⟩ (.alternative ⟨⟨n, hv⟩, hstops⟩ hfalse)
  | call e es =>
      refine (h ⟨.expr e, s⟩ .callee).unlessStopped (rising_expr e) (fun f n n' hle => ?_) ?_
      · refine (rising_list es n n' hle).bind fun found => ?_
        cases found with
        | ok vs => exact rising_call f vs n n' hle
        | error v => exact .refl _
      · intro n f s₁ hf hstops
        refine Settles.bind (h ⟨.list es, s₁⟩ (.arguments ⟨⟨n, hf⟩, hstops⟩)) (rising_list es)
          (fun found => ?_) ?_
        · cases found with
          | ok vs => exact rising_call f vs
          | error v => exact rising_const _
        · intro n' found s₂ hfound
          cases found with
          | ok vs => exact h ⟨.call f vs, s₂⟩ (.application ⟨⟨n, hf⟩, hstops⟩ hfound)
          | error v => exact (Simple.pure v).settles s₂
  | array es =>
      refine Settles.bind (h ⟨.list es, s⟩ .elements) (rising_list es)
        (fun found => rising_const _) ?_
      intro n found s₁ _
      cases found with
      | ok vs => exact (simple_new _).settles s₁
      | error v => exact (Simple.pure v).settles s₁
  | index e f =>
      refine (h ⟨.expr e, s⟩ .base).unlessStopped (rising_expr e)
        (fun v => (rising_expr f).unlessStopped fun w => rising_const _) ?_
      intro n v s₁ hv hstops
      refine (h ⟨.expr f, s₁⟩ (.index ⟨⟨n, hv⟩, hstops⟩)).unlessStopped (rising_expr f)
        (fun w => rising_const _) ?_
      exact fun n w s₂ _ _ => (simple_index v w).settles s₂
  | map ps => exact h ⟨.pairs [] ps, s⟩ .map

theorem ends_list (es : List Expr) (h : ∀ q, Begins ⟨.list es, s⟩ q → q.Ends) :
    Point.Ends ⟨.list es, s⟩ := by
  cases es with
  | nil => exact (Simple.pure _).settles s
  | cons e es =>
      refine Settles.bind (h ⟨.expr e, s⟩ .first) (rising_expr e)
        (fun v => (rising_const _).branch fun n n' hle =>
          (rising_list es n n' hle).bind fun _ => .refl _) ?_
      intro n v s₁ hv
      refine .branch (fun _ => (Simple.pure _).settles s₁) fun hstops => ?_
      refine Settles.bind (h ⟨.list es, s₁⟩ (.others ⟨⟨n, hv⟩, hstops⟩)) (rising_list es)
        (fun found => rising_const _) ?_
      intro n' found s₂ _
      cases found with
      | ok vs => exact (Simple.pure _).settles s₂
      | error w => exact (Simple.pure _).settles s₂

theorem ends_pairs (slots : List (Slot Value)) (ps : List (Expr × Expr))
    (h : ∀ q, Begins ⟨.pairs slots ps, s⟩ q → q.Ends) : Point.Ends ⟨.pairs slots ps, s⟩ := by
  cases ps with
  | nil => exact (simple_new fun id => .map id slots).settles s
  | cons p ps =>
      rcases p with ⟨e, f⟩
      refine (h ⟨.expr e, s⟩ .key).unlessStopped (rising_expr e) (fun k => ?_) ?_
      · cases k.hashKey? with
        | none => exact rising_const _
        | some hash => exact (rising_expr f).unlessStopped fun v => rising_pairs _ ps
      · intro n k s₁ hk hstops
        cases hhash : k.hashKey? with
        | none => exact (simple_new _).settles s₁
        | some hash =>
            refine (h ⟨.expr f, s₁⟩ (.value ⟨⟨n, hk⟩, hstops⟩ hhash)).unlessStopped (rising_expr f)
              (fun v => rising_pairs _ ps) ?_
            exact fun n' v s₂ hv hstops' =>
              h ⟨.pairs _ ps, s₂⟩ (.slot ⟨⟨n, hk⟩, hstops⟩ hhash ⟨⟨n', hv⟩, hstops'⟩)

theorem ends_stmt (st : Stmt) (h : ∀ q, Begins ⟨.stmt st, s⟩ q → q.Ends) :
    Point.Ends ⟨.stmt st, s⟩ := by
  cases st with
  | bind name e =>
      refine (h ⟨.expr e, s⟩ .bound).unlessStopped (rising_expr e) (fun v => rising_const _) ?_
      exact fun n v s' _ _ => ⟨0, _, rfl⟩
  | ret e =>
      refine (h ⟨.expr e, s⟩ .ret).unlessStopped (rising_expr e) (fun v => rising_const _) ?_
      exact fun n v s' _ _ => (simple_new _).settles s'
  | expr e => exact h ⟨.expr e, s⟩ .expr

theorem ends_block (last : Value) (ss : List Stmt)
    (h : ∀ q, Begins ⟨.block last ss, s⟩ q → q.Ends) : Point.Ends ⟨.block last ss, s⟩ := by
  cases ss with
  | nil => exact (Simple.pure last).settles s
  | cons st ss =>
      refine (h ⟨.stmt st, s⟩ .stmt).unlessStopped (rising_stmt st) (fun v => rising_block v ss) ?_
      exact fun n v s' hv hstops => h ⟨.block v ss, s'⟩ (.next ⟨⟨n, hv⟩, hstops⟩)

theorem ends_call (f : Value) (args : List Value) (h : ∀ q, Begins ⟨.call f args, s⟩ q → q.Ends) :
    Point.Ends ⟨.call f args, s⟩ := by
  by_cases hfn : ∃ id params b outer, f = .fn id params b outer ∧ args.length = params.length
  · rcases hfn with ⟨id, params, b, outer, rfl, hlen⟩
    -- The body is run with one limit less than the call.
    rcases h ⟨.block .null b, s.calling outer (params.zip args)⟩ (.body hlen) with ⟨n, r, hbody⟩
    refine ⟨n + 1, (arrived r.1, r.2.enter s.current), ?_⟩
    change Eval.call (body (n + 1)) (.fn id params b outer) args s = _
    rw [call_fn _ id b outer hlen]
    change Block.eval (body n) .null b (s.calling outer (params.zip args)) = some r at hbody
    exact Option.map_eq_some_iff.mpr ⟨r, hbody, rfl⟩
  · have hsimple : Simple (Eval.call (body 0) f args) :=
      simple_call fun id params b outer heq hlen => hfn ⟨id, params, b, outer, heq, hlen⟩
    rcases hsimple.result s with ⟨v, s', hresult, -⟩
    exact ⟨0, (v, s'), hresult⟩

theorem ends_statements (ss : Block) (h : ∀ q, Begins ⟨.statements ss, s⟩ q → q.Ends) :
    Point.Ends ⟨.statements ss, s⟩ := by
  cases ss with
  | nil => exact (Simple.pure none).settles s
  | cons st ss =>
      refine Settles.bind (h ⟨.stmt st, s⟩ .statement) (rising_stmt st) (fun v n n' hle => ?_) ?_
      · cases v with
        | returned _ _ | error _ _ => exact .refl _
        | _ => exact evalFrom_below (body_mono hle) ss _
      · intro n v s' hv
        cases v with
        | returned id inner => exact (Simple.pure _).settles s'
        | error id cause => exact ⟨0, _, rfl⟩
        | _ =>
            rcases h ⟨.statements ss, s'⟩ (.statements ⟨⟨n, hv⟩, rfl⟩) with ⟨n', hrest⟩
            exact ⟨n', ends_from hrest⟩

/-- A part has a result if all parts have one that it begins. -/
theorem ends_of_begins (p : Point) (h : ∀ q, Begins p q → q.Ends) : p.Ends := by
  rcases p with ⟨t, s⟩
  cases t with
  | expr e => exact ends_expr e h
  | list es => exact ends_list es h
  | pairs slots ps => exact ends_pairs slots ps h
  | stmt st => exact ends_stmt st h
  | block last ss => exact ends_block last ss h
  | call f args => exact ends_call f args h
  | statements ss => exact ends_statements ss h

end Point

/-- How large a task is, apart from the bodies of functions. -/
noncomputable def Task.size : Task → Nat
  | .expr e => sizeOf e
  | .list es => sizeOf es
  | .pairs _ ps => sizeOf ps
  | .stmt st => sizeOf st
  | .block _ ss => sizeOf ss
  | .call _ _ => 0
  | .statements ss => sizeOf ss

namespace Point

/-- A part other than a call begins parts that are smaller. -/
theorem size_lt_of_begins {p q : Point} (hq : Begins p q)
    (hcall : ∀ f args, p.task ≠ .call f args) : q.task.size < p.task.size := by
  cases hq with
  | body h => exact absurd rfl (hcall _ _)
  | _ =>
      simp [Task.size]
      try omega

/-- All parts that begin without a call end at the limit of the whole. -/
theorem EndsAt.begins {limit : Nat} {p q : Point} (h : p.EndsAt limit) (hq : Begins p q)
    (hcall : ∀ f args, p.task ≠ .call f args) : q.EndsAt limit := by
  cases hq with
  | operand | left | callee | base | key | bound | ret | stmt | elements | first | statement =>
      exact ends_first h
  | @test e c d => cases d <;> exact ends_first h
  | map | expr => exact h
  | @right op e f s s₁ v hv | @index e f s s₁ v hv =>
      rcases hv with ⟨⟨n, hv⟩, hstops⟩
      exact ends_first ((rising_expr e).ends_unlessStopped h hv hstops)
  | @consequence e c d s s₁ v hv htrue =>
      rcases hv with ⟨⟨n, hv⟩, hstops⟩
      cases d with
      | none | some _ =>
          have hbranch := (rising_expr e).ends_unlessStopped h hv hstops
          simp only [if_pos htrue] at hbranch
          exact hbranch
  | @alternative e c d s s₁ v hv hfalse =>
      rcases hv with ⟨⟨n, hv⟩, hstops⟩
      have hbranch := (rising_expr e).ends_unlessStopped h hv hstops
      simp only [hfalse, Bool.false_eq_true, if_false] at hbranch
      exact hbranch
  | @arguments e es s s₁ f hf =>
      rcases hf with ⟨⟨n, hf⟩, hstops⟩
      exact ends_first ((rising_expr e).ends_unlessStopped h hf hstops)
  | @application e es s s₁ s₂ f vs n' hf hargs =>
      rcases hf with ⟨⟨n, hf⟩, hstops⟩
      exact (rising_list es).ends_next ((rising_expr e).ends_unlessStopped h hf hstops) hargs
  | @others e es s s₁ v hv =>
      rcases hv with ⟨⟨n, hv⟩, hstops⟩
      have hrest := (rising_expr e).ends_next h hv
      simp only [hstops] at hrest
      exact ends_first hrest
  | @value slots e f ps s s₁ k hash hk hhash =>
      rcases hk with ⟨⟨n, hk⟩, hstops⟩
      have hvalue := (rising_expr e).ends_unlessStopped h hk hstops
      simp only [hhash] at hvalue
      exact ends_first hvalue
  | @slot slots e f ps s s₁ s₂ k v hash hk hhash hv =>
      rcases hk with ⟨⟨n, hk⟩, hstops⟩
      rcases hv with ⟨⟨n', hv⟩, hstops'⟩
      have hvalue := (rising_expr e).ends_unlessStopped h hk hstops
      simp only [hhash] at hvalue
      exact (rising_expr f).ends_unlessStopped hvalue hv hstops'
  | @next last v st ss s s₁ hv =>
      rcases hv with ⟨⟨n, hv⟩, hstops⟩
      exact (rising_stmt st).ends_unlessStopped h hv hstops
  | body h => exact absurd rfl (hcall _ _)
  | @statements st ss s s₁ v hv =>
      rcases hv with ⟨⟨n, hv⟩, hstops⟩
      have hrest := (rising_stmt st).ends_next h hv
      cases v with
      | returned _ _ | error _ _ => cases hstops
      | _ => exact ends_from hrest

/-- The body of a function has a limit of its own, which is lower. -/
theorem EndsAt.begins_body {limit : Nat} {s : Store} {f : Value} {args : List Value} {q : Point}
    (h : Point.EndsAt limit ⟨.call f args, s⟩) (hq : Begins ⟨.call f args, s⟩ q) :
    ∃ limit' < limit, q.EndsAt limit' := by
  cases hq with
  | @body id params b outer _ _ hlen =>
      rcases h with ⟨r, h⟩
      change Eval.call (body limit) (.fn id params b outer) args s = some r at h
      rw [call_fn _ id b outer hlen] at h
      rcases Option.map_eq_some_iff.mp h with ⟨p, hbody, -⟩
      cases limit with
      | zero => cases hbody
      | succ limit => exact ⟨limit, Nat.lt_succ_self limit, p, hbody⟩

/-- A part with a result has no parts without end. -/
theorem EndsAt.acc {limit : Nat} {p : Point} (h : p.EndsAt limit) :
    Acc (fun q p => Begins p q) p := by
  -- Calls use up the limit, and between two calls the tasks get smaller.
  induction limit using Nat.strong_induction_on generalizing p with
  | _ limit ihlimit =>
      induction hsize : p.task.size using Nat.strong_induction_on generalizing p with
      | _ size ihsize =>
          refine .intro p fun q hq => ?_
          by_cases hcall : ∃ f args, p.task = .call f args
          · rcases p with ⟨t, s⟩
            rcases hcall with ⟨f, args, rfl⟩
            rcases h.begins_body hq with ⟨limit', hlt, hends⟩
            exact ihlimit limit' hlt hends
          · have hcall' : ∀ f args, p.task ≠ .call f args := fun f args h => hcall ⟨f, args, h⟩
            have hlt : q.task.size < size := hsize ▸ size_lt_of_begins hq hcall'
            exact ihsize _ hlt (h.begins hq hcall') rfl

theorem ends_iff {p : Point} : p.Ends ↔ ∃ limit, p.EndsAt limit := by
  rcases p with ⟨t, s⟩
  cases t <;> exact .rfl

/-- A part has a result if and only if it has no parts without end. -/
theorem ends_iff_acc {p : Point} : p.Ends ↔ Acc (fun q p => Begins p q) p := by
  constructor
  · intro h
    rcases ends_iff.mp h with ⟨limit, hlimit⟩
    exact hlimit.acc
  · intro h
    induction h with
    | intro p _ ih => exact ends_of_begins p ih

end Point

/-- A program has a report at some limit if and only if it ends. -/
theorem Point.ends_start {s : Store} {program : Block} :
    (Point.start program s).Ends ↔
      ∃ limit report, s.run limit Store.withRoot.1 program = some report := by
  constructor
  · rintro ⟨limit, ⟨result, after⟩, heval⟩
    refine ⟨limit, (⟨result, after.output, after.journal.reverse⟩, after), ?_⟩
    exact Option.bind_eq_some_iff.mpr ⟨(result, after), heval, rfl⟩
  · rintro ⟨limit, report, hrun⟩
    rcases Option.bind_eq_some_iff.mp hrun with ⟨p, heval, -⟩
    exact ⟨limit, p, heval⟩

/-- A program has no report, whatever the limit, if and only if it goes on
    forever: each of its parts begins another one. -/
theorem Store.run_eq_none_iff {s : Store} {program : Block} :
    (∀ limit, s.run limit Store.withRoot.1 program = none) ↔
      ∃ f : Nat → Point, f 0 = .start program s ∧ ∀ n, Begins (f n) (f (n + 1)) := by
  have hends : (∀ limit, s.run limit Store.withRoot.1 program = none) ↔
      ¬(Point.start program s).Ends := by
    simp only [Point.ends_start, not_exists, Option.eq_none_iff_forall_ne_some]
  rw [hends, Point.ends_iff_acc]
  exact not_acc_iff_exists_descending_chain

end Monkey
