import Monkey.Proofs.Evaluation.Divergence

/-!
# The Course of an Evaluation

In which order a part begins other parts, and what it does in between.

`Begins` says that one part begins another one, but not which of two parts
comes first, and nothing of what is done with their values. The course of a
part says all of that as data. It is the part to begin next together with the
course that is left when it is known what that part came to, or an operation if
nothing else has to begin. So there are two kinds of courses, and an induction
over what happens in an evaluation has two cases, where one over the syntax has
more than twenty.

Every form of syntax is looked at twice here, and then no more: `begins_iff`
says that what a part begins is what its course asks for, and `Point.comes_iff`
that what it comes to is what its course leads to.

## Main definitions

* `Finding`, `Point.Comes`: What a part comes to.
* `Course`: What a part begins, in order.
* `Point.course`: The course of a part.
* `Course.Leads`: What a course leads to.
* `Course.Asks`: The parts that a course asks for.

## Theorems

* `Point.Comes.unique`: A part comes to one thing.
* `begins_iff`: What a part begins is what its course asks for.
* `Point.comes_iff`: What a part comes to is what its course leads to.
-/

namespace Monkey

open Eval

/-- What a part comes to. Of the statements of a program it is only said that
    they were run. -/
inductive Finding where
  | value (v : Value)
  /-- The values of a list, or the one that ended it. -/
  | list (found : Except Value (List Value))
  | done

/-- What a part comes to if calls may nest to the given depth below it, and the
    store it leaves behind. -/
def Point.finding? (limit : Nat) (p : Point) : Option (Finding × Store) :=
  match p.task with
  | .expr e => (e.eval (body limit) p.store).map fun r => (.value r.1, r.2)
  | .list es => (Expr.evalList (body limit) es p.store).map fun r => (.list r.1, r.2)
  | .pairs slots ps =>
    (Expr.evalPairs (body limit) slots ps p.store).map fun r => (.value r.1, r.2)
  | .stmt st => (st.eval (body limit) p.store).map fun r => (.value r.1, r.2)
  | .block last ss => (Block.eval (body limit) last ss p.store).map fun r => (.value r.1, r.2)
  | .call f args => (Eval.call (body limit) f args p.store).map fun r => (.value r.1, r.2)
  | .statements ss =>
    (Program.evalFrom (body limit) none ss p.store).map fun r => (.done, r.2)

/-- A part comes to something, at some limit. -/
def Point.Comes (p : Point) (a : Finding) (after : Store) : Prop :=
  ∃ limit, p.finding? limit = some (a, after)

/-- What a part begins, in order, and what it does in the end. -/
inductive Course where
  /-- Nothing else begins. What is left is an operation. -/
  | ends (m : Eval Finding)
  /-- A part begins, and what it comes to decides how to go on. -/
  | begins (q : Point) (next : Finding → Store → Course)

namespace Course

/-- The last thing to do is an operation with a value. -/
def operation (m : Eval Value) : Course :=
  .ends (do return .value (← m))

/-- The last thing to do is to hand on what a part comes to. -/
def handing (q : Point) : Course :=
  .begins q fun a _ => .ends (pure a)

/-- A part begins, and what follows it is left out if its value stops. -/
def passing (q : Point) (next : Value → Store → Course) : Course :=
  .begins q fun a s =>
    match a with
    | .value v => if v.stops then .ends (pure (.value v)) else next v s
    | _ => .ends tooDeep

/-- A list begins, and what follows it is left out if one of its values
    stops. -/
def listing (q : Point) (next : List Value → Store → Course) : Course :=
  .begins q fun a s =>
    match a with
    | .list (.ok vs) => next vs s
    | .list (.error v) => .ends (pure (.value v))
    | _ => .ends tooDeep

/-- The body of a function is run, and then the scope of its caller is the
    current one again. -/
def running (q : Point) (caller : ScopeId) : Course :=
  .begins q fun a _ =>
    match a with
    | .value v => .operation fun s => some (arrived v, s.enter caller)
    | _ => .ends tooDeep

/-- The first value of a list is there, and the others follow. -/
def collecting (v : Value) (q : Point) : Course :=
  .begins q fun a _ =>
    match a with
    | .list (.ok vs) => .ends (pure (.list (.ok (v :: vs))))
    | a => .ends (pure a)

end Course

/-- The course of a part. -/
def Point.course (p : Point) : Course :=
  match p.task with
  | .expr (.ident name) => .operation (ident name)
  | .expr (.int n) => .operation (newInt n)
  | .expr (.str contents) => .operation (newStr contents)
  | .expr (.bool b) => .operation (pure (.bool b))
  | .expr (.unary op e) => .passing ⟨.expr e, p.store⟩ fun v _ => .operation (unary op v)
  | .expr (.binary op e f) =>
    .passing ⟨.expr e, p.store⟩ fun v s₁ =>
      .passing ⟨.expr f, s₁⟩ fun w _ => .operation (binary op v w)
  | .expr (.cond e c d) =>
    .passing ⟨.expr e, p.store⟩ fun v s₁ =>
      if v.truthy then .handing ⟨.block .null c, s₁⟩
      else match d with
        | some d => .handing ⟨.block .null d, s₁⟩
        | none => .operation (pure .null)
  | .expr (.fn params b) => .operation (closure params b)
  | .expr (.call e es) =>
    .passing ⟨.expr e, p.store⟩ fun f s₁ =>
      .listing ⟨.list es, s₁⟩ fun vs s₂ => .handing ⟨.call f vs, s₂⟩
  | .expr (.array es) => .listing ⟨.list es, p.store⟩ fun vs _ => .operation (newArray vs)
  | .expr (.index e f) =>
    .passing ⟨.expr e, p.store⟩ fun v s₁ =>
      .passing ⟨.expr f, s₁⟩ fun w _ => .operation (index v w)
  | .expr (.map ps) => .handing ⟨.pairs [] ps, p.store⟩
  | .list [] => .ends (pure (.list (.ok [])))
  | .list (e :: es) =>
    .begins ⟨.expr e, p.store⟩ fun a s₁ =>
      match a with
      | .value v =>
        if v.stops then .ends (pure (.list (.error v))) else .collecting v ⟨.list es, s₁⟩
      | _ => .ends tooDeep
  | .pairs slots [] => .operation (newMap slots)
  | .pairs slots ((e, f) :: ps) =>
    .passing ⟨.expr e, p.store⟩ fun k s₁ =>
      match k.hashKey? with
      | none => .operation (newError (.notHashable k.type))
      | some hash =>
        .passing ⟨.expr f, s₁⟩ fun v s₂ =>
          .handing ⟨.pairs (Slots.insert ⟨hash, k, v⟩ slots) ps, s₂⟩
  | .stmt (.bind name e) =>
    .passing ⟨.expr e, p.store⟩ fun v _ => .operation do
      Eval.bind name v
      return .null
  | .stmt (.ret e) => .passing ⟨.expr e, p.store⟩ fun v _ => .operation (newReturned v)
  | .stmt (.expr e) => .handing ⟨.expr e, p.store⟩
  | .block last [] => .operation (pure last)
  | .block _ (st :: ss) =>
    .passing ⟨.stmt st, p.store⟩ fun v s₁ => .handing ⟨.block v ss, s₁⟩
  | .call f args =>
    match f with
    | .fn _ params b outer =>
      if args.length = params.length then
        .running ⟨.block .null b, p.store.calling outer (params.zip args)⟩ p.store.current
      else .operation (newError (.badArity params.length args.length))
    -- No body is run in the other cases, so it does not matter what would run it.
    | f => .operation (Eval.call (body 0) f args)
  | .statements [] => .ends (pure .done)
  | .statements (st :: ss) =>
    .begins ⟨.stmt st, p.store⟩ fun a s₁ =>
      match a with
      | .value (.returned _ _) => .ends (pure .done)
      | .value (.error _ cause) => .ends do
        record (.stopped cause)
        return .done
      | .value _ => .handing ⟨.statements ss, s₁⟩
      | _ => .ends tooDeep

/-- What a course leads to from a store. -/
inductive Course.Leads : Course → Store → Finding → Store → Prop where
  | ends {m : Eval Finding} {s s' : Store} {a : Finding} (h : m s = some (a, s')) :
    Leads (.ends m) s a s'
  | begins {q : Point} {next : Finding → Store → Course} {s s₁ s' : Store} {a b : Finding}
    (hq : q.Comes b s₁) (h : Leads (next b s₁) s₁ a s') : Leads (.begins q next) s a s'

/-- The parts that a course asks for, each if the ones before it come to
    something. -/
inductive Course.Asks : Course → Point → Prop where
  | here {q : Point} {next : Finding → Store → Course} : Asks (.begins q next) q
  | later {q r : Point} {next : Finding → Store → Course} {b : Finding} {s₁ : Store}
    (hq : q.Comes b s₁) (h : Asks (next b s₁) r) : Asks (.begins q next) r

theorem Eval.Rising.map_finding {α : Type} {m : Nat → Eval α} (hm : Rising m)
    {f : α × Store → Finding × Store} {limit limit' : Nat} (hle : limit ≤ limit') {s : Store}
    {r : Finding × Store} (h : (m limit s).map f = some r) : (m limit' s).map f = some r := by
  rcases Option.map_eq_some_iff.mp h with ⟨u, hu, rfl⟩
  exact Option.map_eq_some_iff.mpr ⟨u, hm limit limit' hle s u hu, rfl⟩

namespace Point

variable {s s' : Store} {v : Value}

theorem comes_expr {limit : Nat} {e : Expr} (h : e.eval (body limit) s = some (v, s')) :
    Point.Comes ⟨.expr e, s⟩ (.value v) s' :=
  ⟨limit, Option.map_eq_some_iff.mpr ⟨_, h, rfl⟩⟩

theorem comes_list {limit : Nat} {es : List Expr} {found : Except Value (List Value)}
    (h : Expr.evalList (body limit) es s = some (found, s')) :
    Point.Comes ⟨.list es, s⟩ (.list found) s' :=
  ⟨limit, Option.map_eq_some_iff.mpr ⟨_, h, rfl⟩⟩

theorem comes_pairs {limit : Nat} {slots : List (Slot Value)} {ps : List (Expr × Expr)}
    (h : Expr.evalPairs (body limit) slots ps s = some (v, s')) :
    Point.Comes ⟨.pairs slots ps, s⟩ (.value v) s' :=
  ⟨limit, Option.map_eq_some_iff.mpr ⟨_, h, rfl⟩⟩

theorem comes_stmt {limit : Nat} {st : Stmt} (h : st.eval (body limit) s = some (v, s')) :
    Point.Comes ⟨.stmt st, s⟩ (.value v) s' :=
  ⟨limit, Option.map_eq_some_iff.mpr ⟨_, h, rfl⟩⟩

theorem comes_block {limit : Nat} {last : Value} {ss : List Stmt}
    (h : Block.eval (body limit) last ss s = some (v, s')) :
    Point.Comes ⟨.block last ss, s⟩ (.value v) s' :=
  ⟨limit, Option.map_eq_some_iff.mpr ⟨_, h, rfl⟩⟩

theorem comes_call {limit : Nat} {f : Value} {args : List Value}
    (h : Eval.call (body limit) f args s = some (v, s')) :
    Point.Comes ⟨.call f args, s⟩ (.value v) s' :=
  ⟨limit, Option.map_eq_some_iff.mpr ⟨_, h, rfl⟩⟩

theorem comes_statements {limit : Nat} {ss : Block} {result : Option Value}
    (h : Program.evalFrom (body limit) none ss s = some (result, s')) :
    Point.Comes ⟨.statements ss, s⟩ .done s' :=
  ⟨limit, Option.map_eq_some_iff.mpr ⟨_, h, rfl⟩⟩

/-- A part that comes to something has no parts without end. -/
theorem Comes.acc {p : Point} {a : Finding} (h : p.Comes a s') :
    Acc (fun q p => Begins p q) p := by
  rcases p with ⟨t, s⟩
  rcases h with ⟨limit, h⟩
  have hends : Point.EndsAt limit ⟨t, s⟩ := by
    cases t with
    | expr _ | list _ | pairs _ _ | stmt _ | block _ _ | call _ _ | statements _ =>
        rcases Option.map_eq_some_iff.mp h with ⟨r, hr, -⟩
        exact ⟨r, hr⟩
  exact hends.acc

/-- A value that a part comes to is what it yields. -/
theorem Comes.yields {p : Point} (h : p.Comes (.value v) s') : p.Yields v s' := by
  rcases p with ⟨t, s⟩
  rcases h with ⟨limit, h⟩
  cases t with
  | list _ | statements _ =>
      rcases Option.map_eq_some_iff.mp h with ⟨r, -, heq⟩
      cases (Prod.mk.inj heq).1
  | _ =>
      rcases Option.map_eq_some_iff.mp h with ⟨r, hr, heq⟩
      cases heq
      exact ⟨limit, hr⟩

theorem Comes.list {es : List Expr} {found : Except Value (List Value)}
    (h : Point.Comes ⟨.list es, s⟩ (.list found) s') :
    ∃ limit, Expr.evalList (body limit) es s = some (found, s') := by
  rcases h with ⟨limit, h⟩
  rcases Option.map_eq_some_iff.mp h with ⟨r, hr, heq⟩
  cases heq
  exact ⟨limit, hr⟩

/-- With a higher limit a part comes to the same. -/
theorem finding?_mono {limit limit' : Nat} (hle : limit ≤ limit') {p : Point} {r : Finding × Store}
    (h : p.finding? limit = some r) : p.finding? limit' = some r := by
  rcases p with ⟨t, s⟩
  cases t with
  | expr e => exact (rising_expr e).map_finding hle h
  | list es => exact (rising_list es).map_finding hle h
  | pairs slots ps => exact (rising_pairs slots ps).map_finding hle h
  | stmt st => exact (rising_stmt st).map_finding hle h
  | block last ss => exact (rising_block last ss).map_finding hle h
  | call f args => exact (rising_call f args).map_finding hle h
  | statements ss =>
      have hrising : Rising fun n => Program.evalFrom (body n) none ss :=
        fun n n' hn => evalFrom_below (body_mono hn) ss none
      exact hrising.map_finding hle h

/-- A part comes to one thing and leaves one store behind, whatever the limits
    at which this was found. -/
theorem Comes.unique {p : Point} {a b : Finding} {s₁ s₂ : Store} (ha : p.Comes a s₁)
    (hb : p.Comes b s₂) : a = b ∧ s₁ = s₂ := by
  rcases ha with ⟨n, ha⟩
  rcases hb with ⟨n', hb⟩
  have ha' := finding?_mono (Nat.le_max_left n n') ha
  have hb' := finding?_mono (Nat.le_max_right n n') hb
  exact Prod.mk.inj (Option.some.inj (ha'.symm.trans hb'))

end Point

namespace Course

variable {s s' s₁ : Store} {v : Value} {q r : Point}

theorem leads_operation {m : Eval Value} (h : m s = some (v, s')) :
    Leads (.operation m) s (.value v) s' :=
  .ends (Option.bind_eq_some_iff.mpr ⟨(v, s'), h, rfl⟩)

theorem leads_pure {a : Finding} : Leads (.ends (pure a)) s a s :=
  .ends rfl

theorem leads_handing {a : Finding} (h : q.Comes a s') : Leads (.handing q) s a s' :=
  .begins h leads_pure

/-- What follows a part is left out if its value stops, and led to if not. -/
theorem leads_passing {m : Eval Value} {f : Value → Eval Value}
    {next : Value → Store → Course} (h : m.unlessStopped f s = some (v, s'))
    (hq : ∀ w s₁, m s = some (w, s₁) → q.Comes (.value w) s₁)
    (hnext : ∀ w s₁, f w s₁ = some (v, s') → (next w s₁).Leads s₁ (.value v) s') :
    Leads (.passing q next) s (.value v) s' := by
  rcases Option.bind_eq_some_iff.mp h with ⟨⟨w, s₁⟩, hfirst, hrest⟩
  refine .begins (hq w s₁ hfirst) ?_
  simp only at hrest ⊢
  by_cases hstops : w.stops = true
  · rw [if_pos hstops] at hrest ⊢
    rcases Prod.mk.inj (Option.some.inj hrest) with ⟨rfl, rfl⟩
    exact leads_pure
  · rw [if_neg hstops] at hrest ⊢
    exact hnext w s₁ hrest

theorem Leads.passing {next : Value → Store → Course} {a : Finding}
    (hv : q.Comes (.value v) s₁) (hstops : v.stops = false)
    (h : (next v s₁).Leads s₁ a s') : (Course.passing q next).Leads s a s' := by
  refine .begins hv ?_
  simp only [hstops]
  exact h

/-- A list is followed by what is done with its values. -/
theorem leads_listing {limit : Nat} {es : List Expr} {f : List Value → Eval Value}
    {next : List Value → Store → Course}
    (h : (Expr.evalList (body limit) es >>= fun found =>
      match found with
      | .ok vs => f vs
      | .error v => pure v) s = some (v, s'))
    (hnext : ∀ vs s₁, f vs s₁ = some (v, s') → (next vs s₁).Leads s₁ (.value v) s') :
    Leads (.listing ⟨.list es, s⟩ next) s (.value v) s' := by
  rcases Option.bind_eq_some_iff.mp h with ⟨⟨found, s₁⟩, hfirst, hrest⟩
  refine .begins (Point.comes_list hfirst) ?_
  cases found with
  | ok vs => exact hnext vs s₁ hrest
  | error w =>
      rcases Prod.mk.inj (Option.some.inj hrest) with ⟨rfl, rfl⟩
      exact leads_pure

end Course

namespace Point

open Course

variable {s s' : Store} {v : Value} {a : Finding} {limit : Nat}

theorem leads_expr (e : Expr) (h : e.eval (body limit) s = some (v, s')) :
    (Point.course ⟨.expr e, s⟩).Leads s (.value v) s' := by
  cases e with
  | ident _ | int _ | str _ | bool _ | fn _ _ => exact leads_operation h
  | unary op e => exact leads_passing h (fun _ _ => comes_expr) fun _ _ => leads_operation
  | binary op e f | index e f =>
      exact leads_passing h (fun _ _ => comes_expr) fun v s₁ h =>
        leads_passing h (fun _ _ => comes_expr) fun w s₂ => leads_operation
  | cond e c d =>
      cases d with
      | none =>
          refine leads_passing h (fun _ _ => comes_expr) fun v s₁ h => ?_
          by_cases htrue : v.truthy = true
          · simp only [if_pos htrue] at h ⊢
            exact leads_handing (comes_block h)
          · simp only [if_neg htrue] at h ⊢
            exact leads_operation h
      | some d =>
          refine leads_passing h (fun _ _ => comes_expr) fun v s₁ h => ?_
          by_cases htrue : v.truthy = true
          · simp only [if_pos htrue] at h ⊢
            exact leads_handing (comes_block h)
          · simp only [if_neg htrue] at h ⊢
            exact leads_handing (comes_block h)
  | call e es =>
      exact leads_passing h (fun _ _ => comes_expr) fun f s₁ h =>
        leads_listing h fun vs s₂ h => leads_handing (comes_call h)
  | array es => exact leads_listing h fun vs s₁ => leads_operation
  | map ps => exact leads_handing (comes_pairs h)

theorem leads_list (es : List Expr) {found : Except Value (List Value)}
    (h : Expr.evalList (body limit) es s = some (found, s')) :
    (Point.course ⟨.list es, s⟩).Leads s (.list found) s' := by
  cases es with
  | nil =>
      rcases Prod.mk.inj (Option.some.inj h) with ⟨rfl, rfl⟩
      exact leads_pure
  | cons e es =>
      rcases Option.bind_eq_some_iff.mp h with ⟨⟨v, s₁⟩, hfirst, hrest⟩
      refine .begins (comes_expr hfirst) ?_
      simp only at hrest ⊢
      by_cases hstops : v.stops = true
      · rw [if_pos hstops] at hrest ⊢
        rcases Prod.mk.inj (Option.some.inj hrest) with ⟨rfl, rfl⟩
        exact leads_pure
      · rw [if_neg hstops] at hrest ⊢
        rcases Option.bind_eq_some_iff.mp hrest with ⟨⟨others, s₂⟩, hothers, hend⟩
        refine .begins (comes_list hothers) ?_
        cases others with
        | ok _ | error _ =>
            rcases Prod.mk.inj (Option.some.inj hend) with ⟨rfl, rfl⟩
            exact leads_pure

theorem leads_pairs (slots : List (Slot Value)) (ps : List (Expr × Expr))
    (h : Expr.evalPairs (body limit) slots ps s = some (v, s')) :
    (Point.course ⟨.pairs slots ps, s⟩).Leads s (.value v) s' := by
  cases ps with
  | nil => exact leads_operation h
  | cons p ps =>
      refine leads_passing h (fun _ _ => comes_expr) fun k s₁ h => ?_
      cases hhash : k.hashKey? with
      | none =>
          simp only [hhash] at h ⊢
          exact leads_operation h
      | some hash =>
          simp only [hhash] at h ⊢
          exact leads_passing h (fun _ _ => comes_expr) fun v s₂ h => leads_handing (comes_pairs h)

theorem leads_stmt (st : Stmt) (h : st.eval (body limit) s = some (v, s')) :
    (Point.course ⟨.stmt st, s⟩).Leads s (.value v) s' := by
  cases st with
  | bind name e | ret e =>
      exact leads_passing h (fun _ _ => comes_expr) fun v s₁ => leads_operation
  | expr e => exact leads_handing (comes_expr h)

theorem leads_block (last : Value) (ss : List Stmt)
    (h : Block.eval (body limit) last ss s = some (v, s')) :
    (Point.course ⟨.block last ss, s⟩).Leads s (.value v) s' := by
  cases ss with
  | nil => exact leads_operation h
  | cons st ss =>
      exact leads_passing h (fun _ _ => comes_stmt) fun v s₁ h => leads_handing (comes_block h)

theorem leads_call (f : Value) (args : List Value)
    (h : Eval.call (body limit) f args s = some (v, s')) :
    (Point.course ⟨.call f args, s⟩).Leads s (.value v) s' := by
  cases f with
  | fn id params b outer =>
      by_cases hlen : args.length = params.length
      · rw [call_fn _ id b outer hlen] at h
        rcases Option.map_eq_some_iff.mp h with ⟨⟨w, s₁⟩, hbody, heq⟩
        simp only [course, if_pos hlen]
        cases limit with
        | zero => cases hbody
        | succ limit =>
            -- The body has been run with one limit less than the call.
            have hblock : Block.eval (body limit) .null b _ = some (w, s₁) := hbody
            refine .begins (comes_block hblock) ?_
            rcases Prod.mk.inj heq with ⟨rfl, rfl⟩
            exact leads_operation rfl
      · simp only [course, if_neg hlen]
        rw [call_fn_of_length _ id b outer hlen] at h
        exact leads_operation h
  | _ => exact leads_operation h

theorem leads_statements (ss : Block) {last result : Option Value}
    (h : Program.evalFrom (body limit) last ss s = some (result, s')) :
    (Point.course ⟨.statements ss, s⟩).Leads s .done s' := by
  cases ss with
  | nil =>
      rcases Prod.mk.inj (Option.some.inj h) with ⟨-, rfl⟩
      exact leads_pure
  | cons st ss =>
      rcases Option.bind_eq_some_iff.mp h with ⟨⟨v, s₁⟩, hfirst, hrest⟩
      refine .begins (comes_stmt hfirst) ?_
      cases v with
      | returned id inner =>
          rcases Prod.mk.inj (Option.some.inj hrest) with ⟨-, rfl⟩
          exact leads_pure
      | error id cause =>
          rcases Prod.mk.inj (Option.some.inj hrest) with ⟨-, rfl⟩
          exact .ends rfl
      | _ =>
          -- A part of statements begins without a value before them, and leaves the same behind.
          have hlast := (Program.evalFrom_last (body limit) _ ss s₁).symm.trans hrest
          rcases Option.map_eq_some_iff.mp hlast with ⟨⟨result', s₂⟩, hnone, heq⟩
          rcases Prod.mk.inj heq with ⟨-, rfl⟩
          exact leads_handing (comes_statements hnone)

/-- What a part comes to is what its course leads to. -/
theorem leads_course {p : Point} (h : p.Comes a s') : p.course.Leads p.store a s' := by
  rcases p with ⟨t, s⟩
  rcases h with ⟨limit, h⟩
  cases t with
  | expr e =>
      rcases Option.map_eq_some_iff.mp h with ⟨⟨v, s₁⟩, hv, heq⟩
      cases heq
      exact leads_expr e hv
  | list es =>
      rcases Option.map_eq_some_iff.mp h with ⟨⟨found, s₁⟩, hv, heq⟩
      cases heq
      exact leads_list es hv
  | pairs slots ps =>
      rcases Option.map_eq_some_iff.mp h with ⟨⟨v, s₁⟩, hv, heq⟩
      cases heq
      exact leads_pairs slots ps hv
  | stmt st =>
      rcases Option.map_eq_some_iff.mp h with ⟨⟨v, s₁⟩, hv, heq⟩
      cases heq
      exact leads_stmt st hv
  | block last ss =>
      rcases Option.map_eq_some_iff.mp h with ⟨⟨v, s₁⟩, hv, heq⟩
      cases heq
      exact leads_block last ss hv
  | call f args =>
      rcases Option.map_eq_some_iff.mp h with ⟨⟨v, s₁⟩, hv, heq⟩
      cases heq
      exact leads_call f args hv
  | statements ss =>
      rcases Option.map_eq_some_iff.mp h with ⟨⟨v, s₁⟩, hv, heq⟩
      cases heq
      exact leads_statements ss hv

end Point

namespace Course

variable {s₁ : Store} {q r : Point}

theorem not_asks_ends {m : Eval Finding} : ¬Asks (.ends m) r :=
  nofun

theorem asks_handing (h : (Course.handing q).Asks r) : r = q := by
  cases h with
  | here => rfl
  | later _ h => exact (not_asks_ends h).elim

/-- What follows a part is asked for if its value does not stop. -/
theorem Asks.passing {next : Value → Store → Course} {v : Value}
    (hv : q.Comes (.value v) s₁) (hstops : v.stops = false) (h : (next v s₁).Asks r) :
    (Course.passing q next).Asks r := by
  refine .later hv ?_
  simp only [hstops]
  exact h

theorem asks_passing {next : Value → Store → Course} (h : (Course.passing q next).Asks r) :
    r = q ∨ ∃ v s₁, q.Passes v s₁ ∧ (next v s₁).Asks r := by
  cases h with
  | here => exact .inl rfl
  | @later _ _ _ a s₁ hq h =>
      cases a with
      | value v =>
          simp only at h
          by_cases hstops : v.stops = true
          · rw [if_pos hstops] at h
            exact (not_asks_ends h).elim
          · rw [if_neg hstops] at h
            exact .inr ⟨v, s₁, ⟨hq.yields, Bool.eq_false_iff.mpr hstops⟩, h⟩
      | list _ | done => exact (not_asks_ends h).elim

theorem Asks.listing {next : List Value → Store → Course} {vs : List Value}
    (hvs : q.Comes (.list (.ok vs)) s₁) (h : (next vs s₁).Asks r) :
    (Course.listing q next).Asks r :=
  .later hvs h

theorem asks_listing {next : List Value → Store → Course} (h : (Course.listing q next).Asks r) :
    r = q ∨ ∃ vs s₁, q.Comes (.list (.ok vs)) s₁ ∧ (next vs s₁).Asks r := by
  cases h with
  | here => exact .inl rfl
  | @later _ _ _ a s₁ hq h =>
      cases a with
      | list found =>
          cases found with
          | ok vs => exact .inr ⟨vs, s₁, hq, h⟩
          | error v => exact (not_asks_ends h).elim
      | value _ | done => exact (not_asks_ends h).elim

theorem asks_running {caller : ScopeId} (h : (Course.running q caller).Asks r) : r = q := by
  cases h with
  | here => rfl
  | @later _ _ _ a _ _ h => cases a <;> exact (not_asks_ends h).elim

theorem asks_collecting {v : Value} (h : (Course.collecting v q).Asks r) : r = q := by
  cases h with
  | here => rfl
  | @later _ _ _ a _ _ h =>
      cases a with
      | list found => cases found <;> exact (not_asks_ends h).elim
      | value _ | done => exact (not_asks_ends h).elim

end Course

open Course in
/-- Its course asks for each part that a part begins. -/
theorem Begins.asks {p q : Point} (h : Begins p q) : p.course.Asks q := by
  cases h with
  | @body id params b outer args s hlen =>
      simp only [Point.course, if_pos hlen]
      exact .here
  | right h | index h =>
      rcases h with ⟨⟨_, hv⟩, hstops⟩
      exact .passing (Point.comes_expr hv) hstops .here
  | consequence h htrue =>
      rcases h with ⟨⟨_, hv⟩, hstops⟩
      refine .passing (Point.comes_expr hv) hstops ?_
      rw [if_pos htrue]
      exact .here
  | alternative h hfalse =>
      rcases h with ⟨⟨_, hv⟩, hstops⟩
      refine .passing (Point.comes_expr hv) hstops ?_
      rw [if_neg (Bool.eq_false_iff.mp hfalse)]
      exact .here
  | arguments h =>
      rcases h with ⟨⟨_, hv⟩, hstops⟩
      exact .passing (Point.comes_expr hv) hstops .here
  | application h hargs =>
      rcases h with ⟨⟨_, hv⟩, hstops⟩
      exact .passing (Point.comes_expr hv) hstops (.listing (Point.comes_list hargs) .here)
  | others h =>
      rcases h with ⟨⟨_, hv⟩, hstops⟩
      refine .later (Point.comes_expr hv) ?_
      simp only [hstops]
      exact .here
  | value h hhash =>
      rcases h with ⟨⟨_, hv⟩, hstops⟩
      refine .passing (Point.comes_expr hv) hstops ?_
      simp only [hhash]
      exact .here
  | slot h hhash h' =>
      rcases h with ⟨⟨_, hk⟩, hstops⟩
      rcases h' with ⟨⟨_, hv⟩, hstops'⟩
      refine .passing (Point.comes_expr hk) hstops ?_
      simp only [hhash]
      exact .passing (Point.comes_expr hv) hstops' .here
  | next h =>
      rcases h with ⟨⟨_, hv⟩, hstops⟩
      exact .passing (Point.comes_stmt hv) hstops .here
  | @statements st ss s s₁ v h =>
      rcases h with ⟨⟨_, hv⟩, hstops⟩
      refine .later (Point.comes_stmt hv) ?_
      cases v with
      | returned _ _ | error _ _ => cases hstops
      | _ => exact .here
  | _ => exact .here

open Course in
theorem begins_of_asks_expr {e : Expr} {s : Store} {q : Point}
    (h : (Point.course ⟨.expr e, s⟩).Asks q) : Begins ⟨.expr e, s⟩ q := by
  cases e with
  | ident _ | int _ | str _ | bool _ | fn _ _ => exact (not_asks_ends h).elim
  | unary op e =>
      rcases asks_passing h with rfl | ⟨v, s₁, hv, h⟩
      · exact .operand
      · exact (not_asks_ends h).elim
  | binary op e f =>
      rcases asks_passing h with rfl | ⟨v, s₁, hv, h⟩
      · exact .left
      · rcases asks_passing h with rfl | ⟨w, s₂, hw, h⟩
        · exact .right hv
        · exact (not_asks_ends h).elim
  | cond e c d =>
      rcases asks_passing h with rfl | ⟨v, s₁, hv, h⟩
      · exact .test
      · by_cases htrue : v.truthy = true
        · rw [if_pos htrue] at h
          obtain rfl := asks_handing h
          exact .consequence hv htrue
        · rw [if_neg htrue] at h
          cases d with
          | none => exact (not_asks_ends h).elim
          | some d =>
              obtain rfl := asks_handing h
              exact .alternative hv (Bool.eq_false_iff.mpr htrue)
  | call e es =>
      rcases asks_passing h with rfl | ⟨f, s₁, hf, h⟩
      · exact .callee
      · rcases asks_listing h with rfl | ⟨vs, s₂, hvs, h⟩
        · exact .arguments hf
        · obtain rfl := asks_handing h
          rcases hvs.list with ⟨limit, hargs⟩
          exact .application hf hargs
  | array es =>
      rcases asks_listing h with rfl | ⟨vs, s₁, hvs, h⟩
      · exact .elements
      · exact (not_asks_ends h).elim
  | index e f =>
      rcases asks_passing h with rfl | ⟨v, s₁, hv, h⟩
      · exact .base
      · rcases asks_passing h with rfl | ⟨w, s₂, hw, h⟩
        · exact .index hv
        · exact (not_asks_ends h).elim
  | map ps =>
      obtain rfl := asks_handing h
      exact .map

open Course in
theorem begins_of_asks_list {es : List Expr} {s : Store} {q : Point}
    (h : (Point.course ⟨.list es, s⟩).Asks q) : Begins ⟨.list es, s⟩ q := by
  cases es with
  | nil => exact (not_asks_ends h).elim
  | cons e es =>
      cases h with
      | here => exact .first
      | @later _ _ _ a s₁ hv h =>
          cases a with
          | value v =>
              simp only at h
              by_cases hstops : v.stops = true
              · rw [if_pos hstops] at h
                exact (not_asks_ends h).elim
              · rw [if_neg hstops] at h
                obtain rfl := asks_collecting h
                exact .others ⟨hv.yields, Bool.eq_false_iff.mpr hstops⟩
          | list _ | done => exact (not_asks_ends h).elim

open Course in
theorem begins_of_asks_pairs {slots : List (Slot Value)} {ps : List (Expr × Expr)} {s : Store}
    {q : Point} (h : (Point.course ⟨.pairs slots ps, s⟩).Asks q) :
    Begins ⟨.pairs slots ps, s⟩ q := by
  cases ps with
  | nil => exact (not_asks_ends h).elim
  | cons p ps =>
      rcases asks_passing h with rfl | ⟨k, s₁, hk, h⟩
      · exact .key
      · cases hhash : k.hashKey? with
        | none =>
            simp only [hhash] at h
            exact (not_asks_ends h).elim
        | some hash =>
            simp only [hhash] at h
            rcases asks_passing h with rfl | ⟨v, s₂, hv, h⟩
            · exact .value hk hhash
            · obtain rfl := asks_handing h
              exact .slot hk hhash hv

open Course in
theorem begins_of_asks_stmt {st : Stmt} {s : Store} {q : Point}
    (h : (Point.course ⟨.stmt st, s⟩).Asks q) : Begins ⟨.stmt st, s⟩ q := by
  cases st with
  | bind name e =>
      rcases asks_passing h with rfl | ⟨v, s₁, hv, h⟩
      · exact .bound
      · exact (not_asks_ends h).elim
  | ret e =>
      rcases asks_passing h with rfl | ⟨v, s₁, hv, h⟩
      · exact .ret
      · exact (not_asks_ends h).elim
  | expr e =>
      obtain rfl := asks_handing h
      exact .expr

open Course in
theorem begins_of_asks_block {last : Value} {ss : List Stmt} {s : Store} {q : Point}
    (h : (Point.course ⟨.block last ss, s⟩).Asks q) : Begins ⟨.block last ss, s⟩ q := by
  cases ss with
  | nil => exact (not_asks_ends h).elim
  | cons st ss =>
      rcases asks_passing h with rfl | ⟨v, s₁, hv, h⟩
      · exact .stmt
      · obtain rfl := asks_handing h
        exact .next hv

open Course in
theorem begins_of_asks_call {f : Value} {args : List Value} {s : Store} {q : Point}
    (h : (Point.course ⟨.call f args, s⟩).Asks q) : Begins ⟨.call f args, s⟩ q := by
  cases f with
  | fn id params b outer =>
      by_cases hlen : args.length = params.length
      · simp only [Point.course, if_pos hlen] at h
        obtain rfl := asks_running h
        exact .body hlen
      · simp only [Point.course, if_neg hlen] at h
        exact (not_asks_ends h).elim
  | _ => exact (not_asks_ends h).elim

open Course in
theorem begins_of_asks_statements {ss : Block} {s : Store} {q : Point}
    (h : (Point.course ⟨.statements ss, s⟩).Asks q) : Begins ⟨.statements ss, s⟩ q := by
  cases ss with
  | nil => exact (not_asks_ends h).elim
  | cons st ss =>
      cases h with
      | here => exact .statement
      | @later _ _ _ a s₁ hv h =>
          cases a with
          | value v =>
              cases v with
              | returned _ _ | error _ _ => exact (not_asks_ends h).elim
              | _ =>
                  obtain rfl := asks_handing h
                  exact .statements ⟨hv.yields, rfl⟩
          | list _ | done => exact (not_asks_ends h).elim

/-- What a part begins is what its course asks for. -/
theorem begins_iff {p q : Point} : Begins p q ↔ p.course.Asks q := by
  refine ⟨Begins.asks, fun h => ?_⟩
  rcases p with ⟨t, s⟩
  cases t with
  | expr e => exact begins_of_asks_expr h
  | list es => exact begins_of_asks_list h
  | pairs slots ps => exact begins_of_asks_pairs h
  | stmt st => exact begins_of_asks_stmt h
  | block last ss => exact begins_of_asks_block h
  | call f args => exact begins_of_asks_call h
  | statements ss => exact begins_of_asks_statements h

/-- A course leads to one thing. -/
theorem Course.Leads.unique {k : Course} {s s₁ s₂ : Store} {a b : Finding}
    (ha : k.Leads s a s₁) (hb : k.Leads s b s₂) : a = b ∧ s₁ = s₂ := by
  induction ha with
  | ends h =>
      cases hb with
      | ends h' => exact Prod.mk.inj (Option.some.inj (h.symm.trans h'))
  | begins hq _ ih =>
      cases hb with
      | begins hq' h' =>
          rcases hq.unique hq' with ⟨rfl, rfl⟩
          exact ih h'

/-- If a course leads somewhere then everything that it asks for comes to
    something. -/
theorem Course.Leads.comes {k : Course} {s s' : Store} {a : Finding} (h : k.Leads s a s')
    {q : Point} (hq : k.Asks q) : ∃ b t, q.Comes b t := by
  induction h with
  | ends _ => exact (not_asks_ends hq).elim
  | begins hb _ ih =>
      cases hq with
      | here => exact ⟨_, _, hb⟩
      | later hb' hq =>
          rcases hb.unique hb' with ⟨rfl, rfl⟩
          exact ih hq

theorem Point.Ends.comes {p : Point} (h : p.Ends) : ∃ a s', p.Comes a s' := by
  rcases p with ⟨t, s⟩
  cases t with
  | expr e => exact ⟨_, _, comes_expr h.choose_spec.choose_spec⟩
  | list es => exact ⟨_, _, comes_list h.choose_spec.choose_spec⟩
  | pairs slots ps => exact ⟨_, _, comes_pairs h.choose_spec.choose_spec⟩
  | stmt st => exact ⟨_, _, comes_stmt h.choose_spec.choose_spec⟩
  | block last ss => exact ⟨_, _, comes_block h.choose_spec.choose_spec⟩
  | call f args => exact ⟨_, _, comes_call h.choose_spec.choose_spec⟩
  | statements ss => exact ⟨_, _, comes_statements h.choose_spec.choose_spec⟩

end Monkey
