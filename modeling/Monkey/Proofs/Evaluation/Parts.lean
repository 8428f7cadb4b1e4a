import Mathlib.Logic.Relation
import Monkey.Proofs.Evaluation.Discipline
import Monkey.Proofs.Evaluation.Operations
import Monkey.Session

/-!
# The Parts of an Evaluation

What happens while a program is evaluated, and not only at its end.

An evaluation is a function, so what it does on the way cannot be seen in it.
To speak of all arguments that a program ever passes, or of a program that
never ends, its evaluation is taken apart here. A part is something to be
evaluated, a `Task`, together with the store at that moment. A part begins
other parts, in the order in which their results are asked for: the right
operand of an operator begins once the left one has a plain value, and the
body of a function begins in the store of the call. No limit is involved. A
part begins if what comes before it has a result at any limit, so all parts
of a program are there even if the program itself has no result: it has none
if and only if its parts go on without end (`Store.run_eq_none_iff`).

Whatever keeps to a discipline does so in all its parts. This needs one thing
more than is asked of the operations alone, that a body starts in a good store.

## Main definitions

* `Task`, `Point`: What is evaluated, and where.
* `Point.Yields`: What a part comes to.
* `Begins`, `Within`: One part begins another one, directly or by way of
  others.
* `Store.Session`: The stores between the programs of a session.

## Theorems

* `Discipline.Ready.begins`: Parts begin as the discipline asks for.
* `Discipline.Ready.within`: So do all parts of these parts.
* `Discipline.Ready.yields`: Their values are fine.
-/

namespace Monkey

/-- Something to be evaluated, with the values that have already been found
    for it. -/
inductive Task where
  /-- An expression. -/
  | expr (e : Expr)
  /-- The expressions of a list that are left. -/
  | list (es : List Expr)
  /-- The pairs of a map that are left, behind slots that are there. -/
  | pairs (slots : List (Slot Value)) (ps : List (Expr × Expr))
  /-- A statement. -/
  | stmt (st : Stmt)
  /-- The statements of a block that are left, behind one with a value. -/
  | block (last : Value) (ss : List Stmt)
  /-- A call, once it is known what is called with what. -/
  | call (callee : Value) (args : List Value)
  /-- The statements of a program that are left. -/
  | statements (ss : Block)

/-- All values that belong to a task have some property. -/
def Task.Over (P : Value → Prop) : Task → Prop
  | pairs slots _ => ∀ slot ∈ slots, P slot.key ∧ P slot.value
  | block last _ => P last
  | call callee args => P callee ∧ ∀ v ∈ args, P v
  | _ => True

theorem Task.Over.imp {P Q : Value → Prop} (hpq : ∀ v, P v → Q v) {t : Task} (h : t.Over P) :
    t.Over Q := by
  cases t with
  | pairs slots ps => exact fun slot hslot => (h slot hslot).imp (hpq _) (hpq _)
  | block last ss => exact hpq last h
  | call callee args => exact ⟨hpq callee h.1, fun v hv => hpq v (h.2 v hv)⟩
  | _ => trivial

/-- A part of an evaluation: something to be evaluated in a store. -/
structure Point where
  /-- What is to be evaluated. -/
  task : Task
  /-- The store in which this begins. -/
  store : Store

/-- A part comes to a value and leaves a store behind, at some limit. What a
    list comes to is the value that ended it. A program comes to nothing here;
    what it results in is found in its report. -/
def Point.Yields (p : Point) (v : Value) (after : Store) : Prop :=
  match p.task with
  | .expr e => ∃ limit, e.eval (Eval.body limit) p.store = some (v, after)
  | .list es => ∃ limit, Expr.evalList (Eval.body limit) es p.store = some (.error v, after)
  | .pairs slots ps =>
    ∃ limit, Expr.evalPairs (Eval.body limit) slots ps p.store = some (v, after)
  | .stmt st => ∃ limit, st.eval (Eval.body limit) p.store = some (v, after)
  | .block last ss => ∃ limit, Block.eval (Eval.body limit) last ss p.store = some (v, after)
  | .call callee args =>
    ∃ limit, Eval.call (Eval.body limit) callee args p.store = some (v, after)
  | .statements _ => False

/-- A part comes to a value that the evaluation goes on with. -/
def Point.Passes (p : Point) (v : Value) (after : Store) : Prop :=
  p.Yields v after ∧ v.stops = false

/-- One part begins another one directly. -/
inductive Begins : Point → Point → Prop where
  | operand {op : Kind} {e : Expr} {s : Store} : Begins ⟨.expr (.unary op e), s⟩ ⟨.expr e, s⟩
  | left {op : Kind} {e f : Expr} {s : Store} : Begins ⟨.expr (.binary op e f), s⟩ ⟨.expr e, s⟩
  | right {op : Kind} {e f : Expr} {s s₁ : Store} {v : Value}
    (h : Point.Passes ⟨.expr e, s⟩ v s₁) : Begins ⟨.expr (.binary op e f), s⟩ ⟨.expr f, s₁⟩
  | test {e : Expr} {c : Block} {d : Option Block} {s : Store} :
    Begins ⟨.expr (.cond e c d), s⟩ ⟨.expr e, s⟩
  | consequence {e : Expr} {c : Block} {d : Option Block} {s s₁ : Store} {v : Value}
    (h : Point.Passes ⟨.expr e, s⟩ v s₁) (htrue : v.truthy = true) :
    Begins ⟨.expr (.cond e c d), s⟩ ⟨.block .null c, s₁⟩
  | alternative {e : Expr} {c d : Block} {s s₁ : Store} {v : Value}
    (h : Point.Passes ⟨.expr e, s⟩ v s₁) (hfalse : v.truthy = false) :
    Begins ⟨.expr (.cond e c (some d)), s⟩ ⟨.block .null d, s₁⟩
  | callee {e : Expr} {es : List Expr} {s : Store} : Begins ⟨.expr (.call e es), s⟩ ⟨.expr e, s⟩
  | arguments {e : Expr} {es : List Expr} {s s₁ : Store} {f : Value}
    (h : Point.Passes ⟨.expr e, s⟩ f s₁) : Begins ⟨.expr (.call e es), s⟩ ⟨.list es, s₁⟩
  | application {e : Expr} {es : List Expr} {s s₁ s₂ : Store} {f : Value} {vs : List Value}
    {limit : Nat} (h : Point.Passes ⟨.expr e, s⟩ f s₁)
    (hargs : Expr.evalList (Eval.body limit) es s₁ = some (.ok vs, s₂)) :
    Begins ⟨.expr (.call e es), s⟩ ⟨.call f vs, s₂⟩
  | elements {es : List Expr} {s : Store} : Begins ⟨.expr (.array es), s⟩ ⟨.list es, s⟩
  | base {e f : Expr} {s : Store} : Begins ⟨.expr (.index e f), s⟩ ⟨.expr e, s⟩
  | index {e f : Expr} {s s₁ : Store} {v : Value} (h : Point.Passes ⟨.expr e, s⟩ v s₁) :
    Begins ⟨.expr (.index e f), s⟩ ⟨.expr f, s₁⟩
  | map {ps : List (Expr × Expr)} {s : Store} : Begins ⟨.expr (.map ps), s⟩ ⟨.pairs [] ps, s⟩
  | first {e : Expr} {es : List Expr} {s : Store} : Begins ⟨.list (e :: es), s⟩ ⟨.expr e, s⟩
  | others {e : Expr} {es : List Expr} {s s₁ : Store} {v : Value}
    (h : Point.Passes ⟨.expr e, s⟩ v s₁) : Begins ⟨.list (e :: es), s⟩ ⟨.list es, s₁⟩
  | key {slots : List (Slot Value)} {e f : Expr} {ps : List (Expr × Expr)} {s : Store} :
    Begins ⟨.pairs slots ((e, f) :: ps), s⟩ ⟨.expr e, s⟩
  | value {slots : List (Slot Value)} {e f : Expr} {ps : List (Expr × Expr)} {s s₁ : Store}
    {k : Value} {hash : HashKey} (h : Point.Passes ⟨.expr e, s⟩ k s₁)
    (hhash : k.hashKey? = some hash) :
    Begins ⟨.pairs slots ((e, f) :: ps), s⟩ ⟨.expr f, s₁⟩
  | slot {slots : List (Slot Value)} {e f : Expr} {ps : List (Expr × Expr)} {s s₁ s₂ : Store}
    {k v : Value} {hash : HashKey} (h : Point.Passes ⟨.expr e, s⟩ k s₁)
    (hhash : k.hashKey? = some hash) (hv : Point.Passes ⟨.expr f, s₁⟩ v s₂) :
    Begins ⟨.pairs slots ((e, f) :: ps), s⟩ ⟨.pairs (Slots.insert ⟨hash, k, v⟩ slots) ps, s₂⟩
  | bound {name : String} {e : Expr} {s : Store} : Begins ⟨.stmt (.bind name e), s⟩ ⟨.expr e, s⟩
  | ret {e : Expr} {s : Store} : Begins ⟨.stmt (.ret e), s⟩ ⟨.expr e, s⟩
  | expr {e : Expr} {s : Store} : Begins ⟨.stmt (.expr e), s⟩ ⟨.expr e, s⟩
  | stmt {last : Value} {st : Stmt} {ss : List Stmt} {s : Store} :
    Begins ⟨.block last (st :: ss), s⟩ ⟨.stmt st, s⟩
  | next {last v : Value} {st : Stmt} {ss : List Stmt} {s s₁ : Store}
    (h : Point.Passes ⟨.stmt st, s⟩ v s₁) :
    Begins ⟨.block last (st :: ss), s⟩ ⟨.block v ss, s₁⟩
  | body {id : ObjectId} {params : List String} {body : Block} {outer : ScopeId}
    {args : List Value} {s : Store} (h : args.length = params.length) :
    Begins ⟨.call (.fn id params body outer) args, s⟩
      ⟨.block .null body, s.calling outer (params.zip args)⟩
  | statement {st : Stmt} {ss : Block} {s : Store} :
    Begins ⟨.statements (st :: ss), s⟩ ⟨.stmt st, s⟩
  | statements {st : Stmt} {ss : Block} {s s₁ : Store} {v : Value}
    (h : Point.Passes ⟨.stmt st, s⟩ v s₁) :
    Begins ⟨.statements (st :: ss), s⟩ ⟨.statements ss, s₁⟩

/-- A part is begun by another one, directly or by way of others. -/
abbrev Within : Point → Point → Prop :=
  Relation.ReflTransGen Begins

namespace Discipline

variable {d : Discipline}

/-- A part begins in a good store, with values that have not stopped. -/
def Ready (d : Discipline) (p : Point) : Prop :=
  d.good p.store ∧ p.task.Over (d.Plain p.store)

/-- Values of parts are fine, and what they leave behind is a change that is
    allowed. -/
theorem Ready.yields (h : d.Followed) {p : Point} (hp : d.Ready p) {v : Value} {s' : Store}
    (hv : p.Yields v s') : d.good s' ∧ d.moves p.store s' ∧ d.fine s' v := by
  rcases p with ⟨t, s⟩
  rcases hp with ⟨hs, hvalues⟩
  cases t with
  | expr e =>
      rcases hv with ⟨limit, hv⟩
      exact expr_keeps h (body_keeps h limit) e s hs v s' hv
  | list es =>
      rcases hv with ⟨limit, hv⟩
      exact list_keeps h (body_keeps h limit) es s hs (.error v) s' hv
  | pairs slots ps =>
      rcases hv with ⟨limit, hv⟩
      exact pairs_keeps h (body_keeps h limit) ps slots s hs hvalues v s' hv
  | stmt st =>
      rcases hv with ⟨limit, hv⟩
      exact stmt_keeps h (body_keeps h limit) st s hs v s' hv
  | block last ss =>
      rcases hv with ⟨limit, hv⟩
      exact block_keeps h (body_keeps h limit) ss last s hs hvalues.1 v s' hv
  | call callee args =>
      rcases hv with ⟨limit, hv⟩
      exact h.call _ (body_keeps h limit) s callee args hs hvalues.1 hvalues.2 v s' hv
  | statements ss => exact hv.elim

/-- What the evaluation goes on with is plain. -/
theorem Ready.passes (h : d.Followed) {p : Point} (hp : d.Ready p) {v : Value} {s' : Store}
    (hv : p.Passes v s') : d.good s' ∧ d.moves p.store s' ∧ d.Plain s' v := by
  rcases hp.yields h hv.1 with ⟨hgood, hmoves, hfine⟩
  exact ⟨hgood, hmoves, hfine, hv.2⟩

/-- A discipline that lasts into calls: bodies of plain functions start in good
    stores. -/
def Enters (d : Discipline) : Prop :=
  ∀ s id params body outer args, d.good s → d.Plain s (.fn id params body outer) →
    (∀ v ∈ args, d.Plain s v) → d.good (s.calling outer (List.zip params args))

/-- A part that begins as the discipline asks for begins others like that. -/
theorem Ready.begins (h : d.Followed) (hcalls : d.Enters) {p q : Point} (hp : d.Ready p)
    (hq : Begins p q) : d.Ready q := by
  -- Whatever passes a value from a store that is good leaves a good one to what begins next.
  have hnext : ∀ {e : Expr} {s s₁ : Store} {v : Value}, d.good s →
      Point.Passes ⟨.expr e, s⟩ v s₁ → d.good s₁ ∧ d.moves s s₁ ∧ d.Plain s₁ v :=
    fun hs hv => Ready.passes h (p := ⟨.expr _, _⟩) ⟨hs, trivial⟩ hv
  have hnull : ∀ s, d.Plain s .null := fun s => ⟨h.null s, rfl⟩
  rcases hp with ⟨hs, hvalues⟩
  cases hq with
  | right hv | arguments hv | index hv | others hv | value hv _ =>
      exact ⟨(hnext hs hv).1, trivial⟩
  | consequence hv _ | alternative hv _ => exact ⟨(hnext hs hv).1, hnull _⟩
  | application hv hargs =>
      rcases hnext hs hv with ⟨hs₁, -, hf⟩
      rcases list_keeps h (body_keeps h _) _ _ hs₁ _ _ hargs with ⟨hs₂, hmoves, hvs⟩
      -- The function has waited while the arguments were evaluated.
      exact ⟨hs₂, hf.mono hmoves, hvs⟩
  | map => exact ⟨hs, fun slot hslot => absurd hslot List.not_mem_nil⟩
  | slot hk _ hv =>
      rcases hnext hs hk with ⟨hs₁, hmoves₁, hk⟩
      rcases hnext hs₁ hv with ⟨hs₂, hmoves₂, hv⟩
      have hslots := (PlainSlots.mono hvalues hmoves₁).mono hmoves₂
      exact ⟨hs₂, hslots.insert (hk.mono hmoves₂) hv⟩
  | next hv =>
      rcases Ready.passes h (p := ⟨.stmt _, _⟩) ⟨hs, trivial⟩ hv with ⟨hs₁, -, hv⟩
      exact ⟨hs₁, hv⟩
  | statements hv =>
      exact ⟨(Ready.passes h (p := ⟨.stmt _, _⟩) ⟨hs, trivial⟩ hv).1, trivial⟩
  | body _ => exact ⟨hcalls _ _ _ _ _ _ hs hvalues.1 hvalues.2, hnull _⟩
  | _ => exact ⟨hs, trivial⟩

/-- All parts of a part begin as the discipline asks for. -/
theorem Ready.within (h : d.Followed) (hcalls : d.Enters) {p q : Point} (hp : d.Ready p)
    (hq : Within p q) : d.Ready q := by
  induction hq with
  | refl => exact hp
  | tail _ hbegins ih => exact ih.begins h hcalls hbegins

end Discipline

/-- The stores between the programs of a session: that of the start, and those
    that are left by programs with a report. -/
inductive Store.Session : Store → Prop where
  | fresh : Session Store.withRoot.2
  | run {s s' : Store} {limit : Nat} {program : Block} {report : Report} (h : Session s)
    (hrun : s.run limit Store.withRoot.1 program = some (report, s')) : Session s'

/-- The part of an evaluation that a program is when it is run in a store. -/
def Point.start (program : Block) (s : Store) : Point :=
  ⟨.statements program, s.clearJournal.enter Store.withRoot.1⟩

end Monkey
