import Monkey.Eval

/-!
# What Evaluation Keeps To

The induction behind everything that holds of all evaluations.

Syntax only says in which order things are done. Whatever is done to a store
is done by a few operations: objects are made, names are bound and looked up,
operators are applied and functions are called. So if these operations keep to
some discipline then every evaluation does, and that is proved here once, for
any discipline, by recursion on the syntax and by induction on how deeply
calls may nest.

A discipline says three things at once because none of them can be had alone.
It names the stores that are good, the ways in which a store may change, and
the values that are fine in a store. Changes are transitive, since evaluations
follow one another, and a value stays fine when the store changes, since it is
often used only after something else has been evaluated.

A value that stops is handed on and never used. What is asked of the
operations therefore concerns plain values alone, those that are fine and do
not stop.

## Main definitions

* `Discipline`: Good stores, allowed changes and fine values.
* `Discipline.Keeps`: An evaluation from a store keeps to a discipline.
* `Discipline.Plain`: A fine value that does not stop.
* `Discipline.Followed`: The operations keep to a discipline.

## Theorems

* `Discipline.Keeps.bind`, `Discipline.Keeps.unlessStopped`: One evaluation
  after another.
* `Discipline.expr_keeps` and the like: Syntax keeps to a discipline.
* `Discipline.body_keeps`: The bodies of functions keep to it.
* `Discipline.evalFrom_keeps`: So do the statements of programs.
-/

namespace Monkey

/-- Which stores are good, how a store may change and which values are fine. -/
structure Discipline where
  /-- The stores in which it holds. -/
  good : Store → Prop
  /-- The changes that are allowed. -/
  moves : Store → Store → Prop
  /-- The values that may occur. -/
  fine : Store → Value → Prop
  /-- Nothing has to change. -/
  refl : ∀ s, moves s s
  /-- Two changes may follow one another. -/
  trans : ∀ {a b c}, moves a b → moves b c → moves a c
  /-- A value stays fine. -/
  stays : ∀ {a b v}, moves a b → fine a v → fine b v

namespace Discipline

variable {d : Discipline} {α β : Type} {s : Store}

/-- If an evaluation from a store has a result then it kept to the discipline,
    and something holds of its value. -/
def Keeps (d : Discipline) (s : Store) (m : Eval α) (P : Store → α → Prop) : Prop :=
  ∀ a s', m s = some (a, s') → d.good s' ∧ d.moves s s' ∧ P s' a

/-- A fine value that does not stop. -/
def Plain (d : Discipline) (s : Store) (v : Value) : Prop :=
  d.fine s v ∧ v.stops = false

theorem Plain.mono {s' : Store} {v : Value} (h : d.Plain s v) (hmoves : d.moves s s') :
    d.Plain s' v :=
  ⟨d.stays hmoves h.1, h.2⟩

theorem keeps_pure {a : α} {P : Store → α → Prop} (hs : d.good s) (ha : P s a) :
    d.Keeps s (pure a) P := by
  intro a' s' h
  rcases Prod.mk.inj (Option.some.inj h) with ⟨rfl, rfl⟩
  exact ⟨hs, d.refl s, ha⟩

/-- A step from which the next evaluation can be known. -/
theorem Keeps.bind {m : Eval α} {f : α → Eval β} {P : Store → α → Prop} {Q : Store → β → Prop}
    (hm : d.Keeps s m P)
    (hf : ∀ a s', d.good s' → d.moves s s' → P s' a → d.Keeps s' (f a) Q) :
    d.Keeps s (m >>= f) Q := by
  intro b s'' h
  rcases Option.bind_eq_some_iff.mp h with ⟨⟨a, s'⟩, hfirst, hrest⟩
  rcases hm a s' hfirst with ⟨hgood, hmoves, ha⟩
  rcases hf a s' hgood hmoves ha b s'' hrest with ⟨hgood', hmoves', hb⟩
  exact ⟨hgood', d.trans hmoves hmoves', hb⟩

/-- A value that stops is handed on, so only plain values are gone on with. -/
theorem Keeps.unlessStopped {m : Eval Value} {f : Value → Eval Value}
    (hm : d.Keeps s m d.fine)
    (hf : ∀ v s', d.good s' → d.moves s s' → d.Plain s' v → d.Keeps s' (f v) d.fine) :
    d.Keeps s (m.unlessStopped f) d.fine := by
  refine hm.bind fun v s' hgood hmoves hv => ?_
  by_cases hstops : v.stops = true
  · -- It is the result, and all that is asked of a result is that it is fine.
    rw [if_pos hstops]
    exact keeps_pure hgood hv
  · rw [if_neg hstops]
    exact hf v s' hgood hmoves ⟨hv, Bool.eq_false_iff.mpr hstops⟩

/-- All values of a list are plain, or the value in its place is fine. -/
def FineList (d : Discipline) (s : Store) : Except Value (List Value) → Prop
  | .ok vs => ∀ v ∈ vs, d.Plain s v
  | .error v => d.fine s v

/-- The keys and values of all slots are plain. -/
def PlainSlots (d : Discipline) (s : Store) (slots : List (Slot Value)) : Prop :=
  ∀ slot ∈ slots, d.Plain s slot.key ∧ d.Plain s slot.value

/-- What is done to a store keeps to the discipline. Of a call this is asked
    for whatever runs the bodies, as long as that keeps to it. -/
structure Followed (d : Discipline) : Prop where
  null : ∀ s, d.fine s .null
  bool : ∀ s b, d.fine s (.bool b)
  ident : ∀ s name, d.good s → d.Keeps s (Eval.ident name) d.fine
  int : ∀ s n, d.good s → d.Keeps s (Eval.newInt n) d.fine
  str : ∀ s contents, d.good s → d.Keeps s (Eval.newStr contents) d.fine
  array : ∀ s vs, d.good s → (∀ v ∈ vs, d.Plain s v) → d.Keeps s (Eval.newArray vs) d.fine
  map : ∀ s slots, d.good s → d.PlainSlots s slots → d.Keeps s (Eval.newMap slots) d.fine
  closure : ∀ s params body, d.good s → d.Keeps s (Eval.closure params body) d.fine
  returned : ∀ s v, d.good s → d.Plain s v → d.Keeps s (Eval.newReturned v) d.fine
  error : ∀ s cause, d.good s → d.Keeps s (Eval.newError cause) d.fine
  unary : ∀ s op v, d.good s → d.Plain s v → d.Keeps s (Eval.unary op v) d.fine
  binary : ∀ s op v w, d.good s → d.Plain s v → d.Plain s w →
    d.Keeps s (Eval.binary op v w) d.fine
  index : ∀ s v w, d.good s → d.Plain s v → d.Plain s w → d.Keeps s (Eval.index v w) d.fine
  bind : ∀ s name v, d.good s → d.Plain s v → d.Keeps s (Eval.bind name v) fun _ _ => True
  call : ∀ run : BodyRunner, (∀ s block, d.good s → d.Keeps s (run block) d.fine) →
    ∀ s f args, d.good s → d.Plain s f → (∀ v ∈ args, d.Plain s v) →
      d.Keeps s (Eval.call run f args) d.fine

/-- Slots stay plain if a plain pair is put into them. -/
theorem PlainSlots.insert {slots : List (Slot Value)} (h : d.PlainSlots s slots)
    {hash : HashKey} {k v : Value} (hk : d.Plain s k) (hv : d.Plain s v) :
    d.PlainSlots s (Slots.insert ⟨hash, k, v⟩ slots) := by
  intro slot hslot
  rcases Slots.mem_insert hslot with rfl | hmem
  · exact ⟨hk, hv⟩
  · exact h slot hmem

theorem PlainSlots.mono {s' : Store} {slots : List (Slot Value)} (h : d.PlainSlots s slots)
    (hmoves : d.moves s s') : d.PlainSlots s' slots :=
  fun slot hslot => ⟨(h slot hslot).1.mono hmoves, (h slot hslot).2.mono hmoves⟩

mutual

/-- Expressions keep to a discipline that is followed. -/
theorem expr_keeps (h : d.Followed) {run : BodyRunner}
    (hrun : ∀ s block, d.good s → d.Keeps s (run block) d.fine) :
    ∀ (e : Expr) (s : Store), d.good s → d.Keeps s (e.eval run) d.fine
  | .ident name, s, hs => h.ident s name hs
  | .int n, s, hs => h.int s n hs
  | .str contents, s, hs => h.str s contents hs
  | .bool b, s, hs => keeps_pure hs (h.bool s b)
  | .unary op operand, s, hs =>
    (expr_keeps h hrun operand s hs).unlessStopped fun v s' hs' _ hv => h.unary s' op v hs' hv
  | .binary op left right, s, hs =>
    (expr_keeps h hrun left s hs).unlessStopped fun v s₁ hs₁ _ hv =>
      (expr_keeps h hrun right s₁ hs₁).unlessStopped fun w s₂ hs₂ hmoves hw =>
        h.binary s₂ op v w hs₂ (hv.mono hmoves) hw
  | .cond test consequence none, s, hs =>
    (expr_keeps h hrun test s hs).unlessStopped fun v s' hs' _ _ => by
      split
      · exact block_keeps h hrun consequence .null s' hs' (h.null s')
      · exact keeps_pure hs' (h.null s')
  | .cond test consequence (some alternative), s, hs =>
    (expr_keeps h hrun test s hs).unlessStopped fun v s' hs' _ _ => by
      split
      · exact block_keeps h hrun consequence .null s' hs' (h.null s')
      · exact block_keeps h hrun alternative .null s' hs' (h.null s')
  | .fn params body, s, hs => h.closure s params body hs
  | .call callee args, s, hs =>
    (expr_keeps h hrun callee s hs).unlessStopped fun f s₁ hs₁ _ hf =>
      (list_keeps h hrun args s₁ hs₁).bind fun found s₂ hs₂ hmoves hfound => by
        cases found with
        | ok vs => exact h.call run hrun s₂ f vs hs₂ (hf.mono hmoves) hfound
        | error v => exact keeps_pure hs₂ hfound
  | .array elements, s, hs =>
    (list_keeps h hrun elements s hs).bind fun found s' hs' _ hfound => by
      cases found with
      | ok vs => exact h.array s' vs hs' hfound
      | error v => exact keeps_pure hs' hfound
  | .index base key, s, hs =>
    (expr_keeps h hrun base s hs).unlessStopped fun v s₁ hs₁ _ hv =>
      (expr_keeps h hrun key s₁ hs₁).unlessStopped fun w s₂ hs₂ hmoves hw =>
        h.index s₂ v w hs₂ (hv.mono hmoves) hw
  | .map pairs, s, hs =>
    pairs_keeps h hrun pairs [] s hs fun _ hslot => absurd hslot List.not_mem_nil

/-- Lists of expressions keep to a discipline that is followed. -/
theorem list_keeps (h : d.Followed) {run : BodyRunner}
    (hrun : ∀ s block, d.good s → d.Keeps s (run block) d.fine) :
    ∀ (es : List Expr) (s : Store), d.good s → d.Keeps s (Expr.evalList run es) d.FineList
  | [], s, hs => keeps_pure hs fun _ hv => absurd hv List.not_mem_nil
  | e :: es, s, hs =>
    (expr_keeps h hrun e s hs).bind fun v s₁ hs₁ _ hv => by
      by_cases hstops : v.stops = true
      · rw [if_pos hstops]
        exact keeps_pure hs₁ hv
      · rw [if_neg hstops]
        refine (list_keeps h hrun es s₁ hs₁).bind fun found s₂ hs₂ hmoves hfound => ?_
        cases found with
        | ok vs =>
            -- The first value has waited while the others were evaluated.
            refine keeps_pure hs₂ fun w hw => ?_
            rcases List.mem_cons.mp hw with rfl | hw
            · exact Plain.mono ⟨hv, Bool.eq_false_iff.mpr hstops⟩ hmoves
            · exact hfound w hw
        | error w => exact keeps_pure hs₂ hfound

/-- The pairs of a map keep to a discipline that is followed. -/
theorem pairs_keeps (h : d.Followed) {run : BodyRunner}
    (hrun : ∀ s block, d.good s → d.Keeps s (run block) d.fine) :
    ∀ (pairs : List (Expr × Expr)) (slots : List (Slot Value)) (s : Store), d.good s →
      d.PlainSlots s slots → d.Keeps s (Expr.evalPairs run slots pairs) d.fine
  | [], slots, s, hs, hslots => h.map s slots hs hslots
  | (key, value) :: pairs, slots, s, hs, hslots =>
    (expr_keeps h hrun key s hs).unlessStopped fun k s₁ hs₁ hmoves hk => by
      split
      · exact h.error s₁ _ hs₁
      · exact (expr_keeps h hrun value s₁ hs₁).unlessStopped fun v s₂ hs₂ hmoves' hv =>
          pairs_keeps h hrun pairs _ s₂ hs₂
            (((hslots.mono hmoves).mono hmoves').insert (hk.mono hmoves') hv)

/-- Statements keep to a discipline that is followed. -/
theorem stmt_keeps (h : d.Followed) {run : BodyRunner}
    (hrun : ∀ s block, d.good s → d.Keeps s (run block) d.fine) :
    ∀ (st : Stmt) (s : Store), d.good s → d.Keeps s (st.eval run) d.fine
  | .bind name value, s, hs =>
    (expr_keeps h hrun value s hs).unlessStopped fun v s₁ hs₁ _ hv =>
      (h.bind s₁ name v hs₁ hv).bind fun _ s₂ hs₂ _ _ => keeps_pure hs₂ (h.null s₂)
  | .ret value, s, hs =>
    (expr_keeps h hrun value s hs).unlessStopped fun v s' hs' _ hv => h.returned s' v hs' hv
  | .expr value, s, hs => expr_keeps h hrun value s hs

/-- Blocks keep to a discipline that is followed. -/
theorem block_keeps (h : d.Followed) {run : BodyRunner}
    (hrun : ∀ s block, d.good s → d.Keeps s (run block) d.fine) :
    ∀ (ss : List Stmt) (last : Value) (s : Store), d.good s → d.fine s last →
      d.Keeps s (Block.eval run last ss) d.fine
  | [], _, _, hs, hlast => keeps_pure hs hlast
  | st :: ss, _, s, hs, _ =>
    (stmt_keeps h hrun st s hs).unlessStopped fun v s' hs' _ hv =>
      block_keeps h hrun ss v s' hs' hv.1

end

/-- The bodies of functions keep to a discipline that is followed, however
    deeply calls may nest. -/
theorem body_keeps (h : d.Followed) (limit : Nat) :
    ∀ s block, d.good s → d.Keeps s (Eval.body limit block) d.fine := by
  induction limit with
  | zero => exact fun s block _ a s' hnone => absurd hnone (by simp [Eval.body, Eval.tooDeep])
  | succ limit ih => exact fun s block hs => block_keeps h ih block .null s hs (h.null s)

/-- The statements of a program keep to a discipline that is followed, if it
    asks for nothing of the journal and nothing of a wrapping but what it asks
    of what is wrapped. -/
theorem evalFrom_keeps (h : d.Followed)
    (hjournal : ∀ s event, d.good s → d.good { s with journal := event :: s.journal } ∧
      d.moves s { s with journal := event :: s.journal })
    (hinner : ∀ s id v, d.fine s (.returned id v) → d.fine s v) (limit : Nat) (ss : Block) :
    ∀ (last : Option Value) (s : Store), d.good s → (∀ v, last = some v → d.fine s v) →
      d.Keeps s (Program.evalFrom (Eval.body limit) last ss)
        fun s' result => ∀ v, result = some v → d.fine s' v := by
  induction ss with
  | nil => exact fun last s hs hlast => keeps_pure hs hlast
  | cons st ss ih =>
      intro last s hs _
      refine (stmt_keeps h (body_keeps h limit) st s hs).bind fun v s₁ hs₁ _ hv => ?_
      cases v with
      | returned id inner =>
          exact keeps_pure hs₁ fun w hw => Option.some.inj hw ▸ hinner s₁ id inner hv
      | error id cause =>
          -- What stopped the program is recorded, and then it is the result.
          intro r s₂ hrun
          rcases hjournal s₁ (.stopped cause) hs₁ with ⟨hgood, hmoves⟩
          rcases Prod.mk.inj (Option.some.inj hrun) with ⟨rfl, rfl⟩
          exact ⟨hgood, hmoves, fun w hw => Option.some.inj hw ▸ d.stays hmoves hv⟩
      | _ => exact ih _ s₁ hs₁ fun w hw => Option.some.inj hw ▸ hv

end Discipline

end Monkey
