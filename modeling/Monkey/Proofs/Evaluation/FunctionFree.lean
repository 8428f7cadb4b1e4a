import Mathlib.Data.List.Basic
import Monkey.Proofs.Evaluation.Limit
import Monkey.Proofs.Evaluation.Position

/-!
# Programs Without Function Literals

Only functions that a program has made can keep it from coming to an end.

A program may call whatever it finds, so calls by themselves do no harm. If there
is no function literal in the program then what it calls was there before: a
builtin, or a value that cannot be called at all, which is an error. The only
other way to a function would be through what names are bound to, and through
the arrays and maps that are found there. If there is no function to be found
from the scope of the program outwards, then there will never be one: what is
bound was found or has been made, and what is made holds only what was found.

Then evaluation goes nowhere but deeper into the program. So it ends with the
same result whatever the limit for nested calls is, zero included. No function is
called, so no scope is added, and the journal records no call. At every moment
the pieces of syntax that are under evaluation are inside of one another, and
there can be no more of them than the program is deep.

Scopes that are not met on the way outwards may hold functions. Nothing is
asked of them, and nothing can be done with them.

## Main definitions

* `Value.FunctionFree`, `Store.FunctionFree`: No function is to be found.
* `Phrase.literalFree`, `Phrase.depth`: Syntax without function literals, and how
  deep it is.
* `Eval.Tame`: Comes to an end, with no function and without a call.
* `Point.Stacked`: The pieces of syntax that are under evaluation.

## Theorems

* `Store.FunctionFree.set`, `Eval.Gives.functionFree`: What is bound and made.
* `Eval.Tame.bind`, `Eval.Tame.unlessStopped`: One evaluation after another.
* `Phrase.tame`: Syntax without function literals is tame.
* `Point.Free.begins`: So are all parts of its evaluation.
* `Position.In.length_le`: Positions are no longer than the program is deep.
* `program_ends_of_functionFree`: Programs without function literals.
-/

namespace Monkey

/-- No function is inside of a value, and it is none itself. -/
def Value.FunctionFree (v : Value) : Prop :=
  ∀ u : Value, u.Inside v → u.type ≠ .function

theorem Value.functionFree_null : Value.null.FunctionFree :=
  fun u hu => by cases hu; nofun

/-- No function is bound in the current scope or around it, nor is one inside of
    what is bound there. -/
def Store.FunctionFree (s : Store) : Prop :=
  ∀ scope ∈ s.chain s.current, ∀ b ∈ scope.bindings, b.2.FunctionFree

namespace Phrase

variable {a b : Phrase}

theorem sizeOf_le_of_mem_exprs {es : List Expr} (h : b ∈ es.map expr) : sizeOf b ≤ sizeOf es := by
  rcases List.mem_map.mp h with ⟨e, he, rfl⟩
  have hlt := List.sizeOf_lt_of_mem he
  simp only [expr.sizeOf_spec]
  omega

theorem sizeOf_le_of_mem_stmts {ss : List Stmt} (h : b ∈ ss.map stmt) : sizeOf b ≤ sizeOf ss := by
  rcases List.mem_map.mp h with ⟨st, hst, rfl⟩
  have hlt := List.sizeOf_lt_of_mem hst
  simp only [stmt.sizeOf_spec]
  omega

theorem sizeOf_le_of_mem_pairs {ps : List (Expr × Expr)}
    (h : b ∈ ps.flatMap fun p => [expr p.1, expr p.2]) : sizeOf b ≤ sizeOf ps := by
  rcases List.mem_flatMap.mp h with ⟨⟨e, f⟩, hp, hmem⟩
  have hlt := List.sizeOf_lt_of_mem hp
  simp only [Prod.mk.sizeOf_spec] at hlt
  rcases List.mem_pair.mp hmem with rfl | rfl <;> simp only [expr.sizeOf_spec] <;> omega

/-- A constituent is smaller than what it is a constituent of. -/
theorem sizeOf_lt_of_mem_parts (h : b ∈ a.parts) : sizeOf b < sizeOf a := by
  unfold parts at h
  split at h
  all_goals grind [expr.sizeOf_spec, stmt.sizeOf_spec, → sizeOf_le_of_mem_exprs,
    → sizeOf_le_of_mem_stmts, → sizeOf_le_of_mem_pairs]

/-- How many pieces of syntax are inside of one another at most. -/
def depth (a : Phrase) : Nat :=
  ((a.parts.attach.map fun b => b.1.depth).max?.getD 0) + 1
termination_by sizeOf a
decreasing_by exact sizeOf_lt_of_mem_parts b.2

/-- There is no function literal in a piece of syntax, and it is none itself. -/
def literalFree (a : Phrase) : Bool :=
  !a.isFn && a.parts.attach.all fun b => b.1.literalFree
termination_by sizeOf a
decreasing_by exact sizeOf_lt_of_mem_parts b.2

theorem depth_lt_of_mem_parts (h : b ∈ a.parts) : b.depth < a.depth := by
  rw [depth.eq_1 a]
  refine Nat.lt_succ_of_le (List.le_max?_getD_of_mem ?_)
  exact List.mem_map_of_mem (List.mem_attach a.parts ⟨b, h⟩)

theorem depth_pos : 0 < a.depth := by
  rw [depth]
  exact Nat.succ_pos _

theorem literalFree_iff :
    a.literalFree = true ↔ a.isFn = false ∧ ∀ b ∈ a.parts, b.literalFree = true := by
  rw [literalFree, Bool.and_eq_true, Bool.not_eq_true', List.all_eq_true]
  exact and_congr_right fun _ => ⟨fun h b hb => h ⟨b, hb⟩ (List.mem_attach _ _), fun h b _ =>
    h b.1 b.2⟩

/-- Something holds of all syntax if it holds of whatever it holds of the
    constituents of. -/
theorem induct {P : Phrase → Prop} (h : ∀ a : Phrase, (∀ b ∈ a.parts, P b) → P a) (a : Phrase) :
    P a :=
  h a fun b _ => induct h b
termination_by sizeOf a
decreasing_by exact sizeOf_lt_of_mem_parts ‹_›

end Phrase

namespace Store

variable {s s' : Store} {v : Value}

/-- A scope after a binding in it or in another one. -/
theorem exists_scope_set {i scope : ScopeId} {here : Scope} (hhere : s.scopes[scope]? = some here)
    (name : String) (v : Value) :
    ∃ found, (s.set i name v).scopes[scope]? = some found ∧ found.outer = here.outer ∧
      ∀ b ∈ found.bindings, b = (name, v) ∨ b ∈ here.bindings := by
  by_cases hi : scope = i
  · refine ⟨{ here with bindings := Bindings.insert name v here.bindings }, ?_, rfl,
      fun b hb => Bindings.mem_insert hb⟩
    simp only [Store.set, Array.getElem?_modify, if_pos hi.symm, hhere, Option.map_some]
  · exact ⟨here, (set_scopes_of_ne hi name v).trans hhere, rfl, fun b hb => .inr hb⟩

/-- On the way outwards after a binding, each scope is what it was, or it has one
    more binding. -/
theorem mem_chain_set {i scope : ScopeId} {name : String} {found : Scope}
    (h : found ∈ (s.set i name v).chain scope) :
    ∃ old ∈ s.chain scope, ∀ b ∈ found.bindings, b = (name, v) ∨ b ∈ old.bindings := by
  -- Links are followed only to smaller numbers, and a binding leaves them as they are.
  induction scope using Nat.strongRecOn with
  | ind scope ih =>
      rw [chain] at h ⊢
      cases hhere : s.scopes[scope]? with
      | none =>
          have hnone : (s.set i name v).scopes[scope]? = none := by
            rw [Array.getElem?_eq_none_iff] at hhere ⊢
            exact (set_size s i name v).symm ▸ hhere
          rw [hnone] at h
          exact absurd h List.not_mem_nil
      | some here =>
          rcases exists_scope_set (i := i) hhere name v with ⟨new, hnew, houter, hbindings⟩
          rw [hnew] at h
          simp only [houter] at h ⊢
          cases hnext : here.outer with
          | none =>
              simp only [hnext, List.mem_singleton] at h
              exact ⟨here, List.mem_singleton_self here, h ▸ hbindings⟩
          | some outer =>
              by_cases hlt : outer < scope
              · simp only [hnext, if_pos hlt] at h ⊢
                rcases List.mem_cons.mp h with rfl | h
                · exact ⟨here, List.mem_cons_self, hbindings⟩
                · rcases ih outer hlt h with ⟨old, hold, hrest⟩
                  exact ⟨old, List.mem_cons_of_mem _ hold, hrest⟩
              · simp only [hnext, if_neg hlt, List.mem_singleton] at h ⊢
                exact ⟨here, rfl, h ▸ hbindings⟩

/-- What a name stands for is no function where there is none. -/
theorem FunctionFree.get? (h : s.FunctionFree) {name : String}
    (hget : s.get? s.current name = some v) : v.FunctionFree := by
  rcases List.exists_of_findSome?_eq_some hget with ⟨found, hmem, hfind⟩
  rcases List.lookup_eq_some_iff.mp hfind with ⟨front, behind, heq, -⟩
  refine h found hmem (name, v) ?_
  rw [heq]
  exact List.mem_append_right _ List.mem_cons_self

theorem FunctionFree.of_eq (h : s.FunctionFree) (hscopes : s'.scopes = s.scopes)
    (hcurrent : s'.current = s.current) : s'.FunctionFree := by
  unfold FunctionFree
  rw [hcurrent, chain_of_eq hscopes]
  exact h

/-- A name may be bound to anything that is free of functions. -/
theorem FunctionFree.set (h : s.FunctionFree) (hv : v.FunctionFree) (i : ScopeId)
    (name : String) : (s.set i name v).FunctionFree := by
  intro found hfound b hb
  rcases mem_chain_set hfound with ⟨old, hold, hbindings⟩
  rcases hbindings b hb with rfl | hb
  · exact hv
  · exact h old hold b hb

/-- No scope has been added and nothing recorded, and the current scope is the same
    one. -/
structure Kept (before after : Store) : Prop where
  current : after.current = before.current
  size : after.scopes.size = before.scopes.size
  journal : after.journal = before.journal

theorem Kept.trans {a b c : Store} (h : a.Kept b) (h' : b.Kept c) : a.Kept c :=
  ⟨h'.current.trans h.current, h'.size.trans h.size, h'.journal.trans h.journal⟩

end Store

namespace Eval

variable {α β : Type} {s s' : Store} {given : List Value} {v : Value}

/-- What an operation makes or hands on is free of functions if everything is
    that is given and that is bound. -/
theorem Gives.functionFree (h : Gives s given v s') (hs : s.FunctionFree)
    (hgiven : ∀ g ∈ given, g.FunctionFree) : s.Kept s' ∧ s'.FunctionFree ∧ v.FunctionFree := by
  cases h with
  | null out => exact ⟨⟨rfl, rfl, rfl⟩, hs.of_eq rfl rfl, Value.functionFree_null⟩
  | bool b => exact ⟨⟨rfl, rfl, rfl⟩, hs, fun u hu => by cases hu; nofun⟩
  | bound hget => exact ⟨⟨rfl, rfl, rfl⟩, hs, hs.get? hget⟩
  | found hg hin => exact ⟨⟨rfl, rfl, rfl⟩, hs, fun u hu => hgiven _ hg u (hu.trans hin)⟩
  | made _ hkind hinside =>
      -- Only a function literal makes a function, and it is none of the operations.
      refine ⟨⟨rfl, rfl, rfl⟩, hs.of_eq rfl rfl, fun u hu => ?_⟩
      rcases hinside u hu with rfl | ⟨g, hg, hin⟩
      · exact hkind.1
      · exact hgiven g hg u hin

/-- An evaluation from a store that comes to an end. It adds no scope and records
    nothing, it leaves the store free of functions, and something holds of its
    value. -/
def Tame (s : Store) (m : Eval α) (P : α → Prop) : Prop :=
  ∃ a s', m s = some (a, s') ∧ s.Kept s' ∧ s'.FunctionFree ∧ P a

theorem tame_pure (hs : s.FunctionFree) {a : α} {P : α → Prop} (ha : P a) :
    Tame s (pure a) P :=
  ⟨a, s, rfl, ⟨rfl, rfl, rfl⟩, hs, ha⟩

/-- One evaluation after another. -/
theorem Tame.bind {m : Eval α} {f : α → Eval β} {P : α → Prop} {Q : β → Prop}
    (hm : Tame s m P) (hf : ∀ a s', s'.FunctionFree → P a → Tame s' (f a) Q) :
    Tame s (m >>= f) Q := by
  rcases hm with ⟨a, s', hfirst, hkept, hs', ha⟩
  rcases hf a s' hs' ha with ⟨b, s'', hrest, hkept', hs'', hb⟩
  exact ⟨b, s'', Option.bind_eq_some_iff.mpr ⟨(a, s'), hfirst, hrest⟩, hkept.trans hkept', hs'', hb⟩

/-- A value that stops is the result, and it is free of functions like any
    other. -/
theorem Tame.unlessStopped {m : Eval Value} {f : Value → Eval Value}
    (hm : Tame s m Value.FunctionFree)
    (hf : ∀ v s', s'.FunctionFree → v.FunctionFree → Tame s' (f v) Value.FunctionFree) :
    Tame s (m.unlessStopped f) Value.FunctionFree := by
  refine hm.bind fun v s' hs' hv => ?_
  by_cases hstops : v.stops = true
  · rw [if_pos hstops]
    exact tame_pure hs' hv
  · rw [if_neg hstops]
    exact hf v s' hs' hv

/-- There is one result, so what is known of some result is known of all. -/
theorem Tame.of_eq {m : Eval α} {P : α → Prop} (h : Tame s m P) {a : α} (ha : m s = some (a, s')) :
    s'.FunctionFree ∧ P a := by
  rcases h with ⟨b, t, hb, -, ht, hPb⟩
  rcases Prod.mk.inj (Option.some.inj (ha.symm.trans hb)) with ⟨rfl, rfl⟩
  exact ⟨ht, hPb⟩

/-- A new object that is free of functions with any number. -/
theorem tame_new (hs : s.FunctionFree) {f : ObjectId → Value} (hf : ∀ id, (f id).FunctionFree) :
    Tame s (newId >>= fun id => pure (f id)) Value.FunctionFree :=
  ⟨f s.nextId, _, rfl, ⟨rfl, rfl, rfl⟩, hs.of_eq rfl rfl, hf s.nextId⟩

theorem tame_newError (hs : s.FunctionFree) (cause : RuntimeError) :
    Tame s (newError cause) Value.FunctionFree :=
  tame_new hs fun _ u hu => by cases hu; nofun

/-- An operation on values that are free of functions. -/
theorem tame_operation {m : Eval Value} (hm : Simple m) (htrying : Trying given m)
    (hs : s.FunctionFree) (hgiven : ∀ g ∈ given, g.FunctionFree) :
    Tame s m Value.FunctionFree := by
  rcases hm.result s with ⟨v, s', hresult, -⟩
  rcases htrying s v s' hresult with hgives | ⟨cause, herror⟩
  · exact ⟨v, s', hresult, hgives.functionFree hs hgiven⟩
  · rcases tame_newError hs cause with ⟨w, t, hw, hrest⟩
    exact ⟨w, t, hresult.trans (herror.symm.trans hw), hrest⟩

/-- An operation that hands on nothing that it is given. -/
theorem tame_alone {m : Eval Value} (hm : Simple m) (htrying : Trying [] m)
    (hs : s.FunctionFree) : Tame s m Value.FunctionFree :=
  tame_operation hm htrying hs fun _ hg => absurd hg List.not_mem_nil

theorem tame_bind (hs : s.FunctionFree) (hv : v.FunctionFree) (name : String) :
    Tame s (Eval.bind name v) fun _ => True :=
  ⟨(), s.set s.current name v, rfl, ⟨rfl, Store.set_size .., rfl⟩, hs.set hv s.current name,
    trivial⟩

/-- A call of what is no function runs no body. -/
theorem tame_call (run : BodyRunner) {f : Value} {args : List Value} (hs : s.FunctionFree)
    (hf : f.FunctionFree) (hargs : ∀ v ∈ args, v.FunctionFree) :
    Tame s (call run f args) Value.FunctionFree := by
  have hnone : ∀ id params body outer, f = .fn id params body outer →
      args.length ≠ params.length := by
    rintro id params body outer rfl -
    exact hf _ (.refl _) rfl
  exact tame_operation (simple_call hnone) (trying_call hnone) hs hargs

/-- The values of a list, or the one in their place, are free of functions. -/
def FreeList : Except Value (List Value) → Prop
  | .ok vs => ∀ v ∈ vs, v.FunctionFree
  | .error v => v.FunctionFree

variable {run : BodyRunner}

theorem tame_list {es : List Expr}
    (h : ∀ e ∈ es, ∀ s : Store, s.FunctionFree → Tame s (e.eval run) Value.FunctionFree)
    (hs : s.FunctionFree) : Tame s (Expr.evalList run es) FreeList := by
  induction es generalizing s with
  | nil => exact tame_pure hs fun v hv => absurd hv List.not_mem_nil
  | cons e es ih =>
      rcases List.forall_mem_cons.mp h with ⟨he, hes⟩
      refine (he s hs).bind fun v s₁ hs₁ hv => ?_
      by_cases hstops : v.stops = true
      · rw [if_pos hstops]
        exact tame_pure hs₁ hv
      · rw [if_neg hstops]
        refine (ih hes hs₁).bind fun found s₂ hs₂ hfound => ?_
        cases found with
        | ok vs => exact tame_pure hs₂ (List.forall_mem_cons.mpr ⟨hv, hfound⟩)
        | error w => exact tame_pure hs₂ hfound

/-- The keys and values of slots are free of functions. -/
def FreeSlots (slots : List (Slot Value)) : Prop :=
  ∀ slot ∈ slots, slot.key.FunctionFree ∧ slot.value.FunctionFree

theorem FreeSlots.insert {slots : List (Slot Value)} (h : FreeSlots slots) {hash : HashKey}
    {k w : Value} (hk : k.FunctionFree) (hw : w.FunctionFree) :
    FreeSlots (Slots.insert ⟨hash, k, w⟩ slots) := by
  intro slot hslot
  rcases Slots.mem_insert hslot with rfl | hold
  · exact ⟨hk, hw⟩
  · exact h slot hold

theorem tame_pairs {ps : List (Expr × Expr)} {slots : List (Slot Value)}
    (hkeys : ∀ p ∈ ps, ∀ s : Store, s.FunctionFree → Tame s (p.1.eval run) Value.FunctionFree)
    (hvalues : ∀ p ∈ ps, ∀ s : Store, s.FunctionFree → Tame s (p.2.eval run) Value.FunctionFree)
    (hs : s.FunctionFree) (hslots : FreeSlots slots) :
    Tame s (Expr.evalPairs run slots ps) Value.FunctionFree := by
  induction ps generalizing s slots with
  | nil =>
      refine tame_new hs fun id u hu => ?_
      cases hu with
      | refl => nofun
      | key hslot hu => exact (hslots _ hslot).1 u hu
      | value hslot hu => exact (hslots _ hslot).2 u hu
  | cons p ps ih =>
      rcases List.forall_mem_cons.mp hkeys with ⟨hkey, hkeys⟩
      rcases List.forall_mem_cons.mp hvalues with ⟨hvalue, hvalues⟩
      refine (hkey s hs).unlessStopped fun k s₁ hs₁ hk => ?_
      cases k.hashKey? with
      | none => exact tame_newError hs₁ _
      | some hash =>
          refine (hvalue s₁ hs₁).unlessStopped fun w s₂ hs₂ hw => ?_
          exact ih hkeys hvalues hs₂ (hslots.insert hk hw)

theorem tame_block {ss : List Stmt} {last : Value}
    (h : ∀ st ∈ ss, ∀ s : Store, s.FunctionFree → Tame s (st.eval run) Value.FunctionFree)
    (hs : s.FunctionFree) (hlast : last.FunctionFree) :
    Tame s (Block.eval run last ss) Value.FunctionFree := by
  induction ss generalizing s last with
  | nil => exact tame_pure hs hlast
  | cons st ss ih =>
      rcases List.forall_mem_cons.mp h with ⟨hst, hss⟩
      exact (hst s hs).unlessStopped fun v s₁ hs₁ hv => ih hss hs₁ hv

end Eval

open Eval

namespace Phrase

/-- The value of a piece of syntax. -/
def eval (run : BodyRunner) : Phrase → Eval Value
  | expr e => e.eval run
  | stmt st => st.eval run

variable {run : BodyRunner} {s : Store}

/-- An expression is tame if its constituents are. -/
theorem tame_expr {e : Expr} (hfn : (expr e).isFn = false)
    (hparts : ∀ b ∈ (expr e).parts, ∀ s : Store, s.FunctionFree →
      Tame s (b.eval run) Value.FunctionFree)
    (hs : s.FunctionFree) : Tame s (e.eval run) Value.FunctionFree := by
  cases e with
  | ident name => exact tame_alone (simple_ident name) (trying_ident name) hs
  | int n => exact tame_alone (simple_new _) (giving_newInt n).trying hs
  | str contents => exact tame_alone (simple_new _) (giving_newStr contents).trying hs
  | bool b => exact tame_alone (.pure _) (giving_bool b).trying hs
  | fn params b => cases hfn
  | unary op e =>
      refine Tame.unlessStopped (hparts (.expr e) List.mem_cons_self s hs) fun v s₁ hs₁ _ => ?_
      exact tame_alone (simple_unary op v) (trying_unary op v) hs₁
  | binary op e f =>
      refine Tame.unlessStopped (hparts (.expr e) List.mem_cons_self s hs) fun v s₁ hs₁ _ => ?_
      have hright := hparts (.expr f) (List.mem_cons_of_mem _ List.mem_cons_self) s₁ hs₁
      refine Tame.unlessStopped hright fun w s₂ hs₂ _ => ?_
      exact tame_alone (simple_binary op v w) (trying_binary op v w) hs₂
  | index e f =>
      refine Tame.unlessStopped (hparts (.expr e) List.mem_cons_self s hs) fun v s₁ hs₁ hv => ?_
      have hright := hparts (.expr f) (List.mem_cons_of_mem _ List.mem_cons_self) s₁ hs₁
      refine Tame.unlessStopped hright fun w s₂ hs₂ _ => ?_
      exact tame_operation (simple_index v w) (trying_index v w) hs₂
        (List.forall_mem_singleton.mpr hv)
  | cond e b d =>
      cases d with
      | none =>
          rcases List.forall_mem_cons.mp hparts with ⟨he, hb⟩
          refine Tame.unlessStopped (he s hs) fun v s₁ hs₁ _ => ?_
          split
          · exact tame_block (List.forall_mem_map.mp hb) hs₁ Value.functionFree_null
          · exact tame_pure hs₁ Value.functionFree_null
      | some d =>
          rcases List.forall_mem_cons.mp hparts with ⟨he, hblocks⟩
          rcases List.forall_mem_append.mp hblocks with ⟨hb, hd⟩
          refine Tame.unlessStopped (he s hs) fun v s₁ hs₁ _ => ?_
          split
          · exact tame_block (List.forall_mem_map.mp hb) hs₁ Value.functionFree_null
          · exact tame_block (List.forall_mem_map.mp hd) hs₁ Value.functionFree_null
  | call e es =>
      rcases List.forall_mem_cons.mp hparts with ⟨he, hes⟩
      refine Tame.unlessStopped (he s hs) fun f s₁ hs₁ hf => ?_
      refine (tame_list (List.forall_mem_map.mp hes) hs₁).bind fun found s₂ hs₂ hfound => ?_
      cases found with
      | ok vs => exact tame_call run hs₂ hf hfound
      | error v => exact tame_pure hs₂ hfound
  | array es =>
      refine (tame_list (List.forall_mem_map.mp hparts) hs).bind fun found s₁ hs₁ hfound => ?_
      cases found with
      | ok vs =>
          exact tame_operation (simple_new _) (giving_newArray fun e he => ⟨e, he, .refl e⟩).trying
            hs₁ hfound
      | error v => exact tame_pure hs₁ hfound
  | map ps =>
      have hpair : ∀ p ∈ ps, ∀ b ∈ [Phrase.expr p.1, Phrase.expr p.2], b ∈ (expr (.map ps)).parts :=
        fun p hp b hb => List.mem_flatMap.mpr ⟨p, hp, hb⟩
      refine tame_pairs (fun p hp => hparts (.expr p.1) ?_) (fun p hp => hparts (.expr p.2) ?_) hs
        fun slot hslot => absurd hslot List.not_mem_nil
      · exact hpair p hp _ List.mem_cons_self
      · exact hpair p hp _ (List.mem_cons_of_mem _ List.mem_cons_self)

theorem tame_stmt {st : Stmt}
    (hparts : ∀ b ∈ (stmt st).parts, ∀ s : Store, s.FunctionFree →
      Tame s (b.eval run) Value.FunctionFree)
    (hs : s.FunctionFree) : Tame s (st.eval run) Value.FunctionFree := by
  cases st with
  | bind name e =>
      refine Tame.unlessStopped (hparts (.expr e) List.mem_cons_self s hs) fun v s₁ hs₁ hv => ?_
      exact (tame_bind hs₁ hv name).bind fun _ s₂ hs₂ _ => tame_pure hs₂ Value.functionFree_null
  | ret e =>
      refine Tame.unlessStopped (hparts (.expr e) List.mem_cons_self s hs) fun v s₁ hs₁ hv => ?_
      refine tame_new hs₁ fun id u hu => ?_
      cases hu with
      | refl => nofun
      | inner hu => exact hv u hu
  | expr e => exact hparts (.expr e) List.mem_cons_self s hs

/-- Syntax without function literals is tame where there are no functions,
    whatever runs the bodies of functions. -/
theorem tame (run : BodyRunner) {a : Phrase} (ha : a.literalFree = true)
    (hs : s.FunctionFree) : Tame s (a.eval run) Value.FunctionFree := by
  induction a using induct generalizing s with
  | h a ih =>
      rcases literalFree_iff.mp ha with ⟨hfn, hparts⟩
      have hpart : ∀ b ∈ a.parts, ∀ s : Store, s.FunctionFree →
          Tame s (b.eval run) Value.FunctionFree :=
        fun b hb s hs => ih b hb (hparts b hb) hs
      rcases a with e | st
      · exact tame_expr hfn hpart hs
      · exact tame_stmt hpart hs

end Phrase

/-- A part of an evaluation in which there is no function, with no function literal
    left to evaluate. -/
structure Point.Free (p : Point) : Prop where
  store : p.store.FunctionFree
  values : p.task.Over Value.FunctionFree
  literals : ∀ a ∈ p.task.phrases, a.literalFree = true

namespace Point

variable {p q : Point}

/-- The value that an expression or a statement passes on. -/
theorem Passes.functionFree {s s₁ : Store} {v : Value} {t : Task} {a : Phrase}
    (hv : Passes ⟨t, s⟩ v s₁) (ht : t.phrase? = some a) (ha : a.literalFree = true)
    (hs : s.FunctionFree) : s₁.FunctionFree ∧ v.FunctionFree := by
  cases t with
  | expr e =>
      cases ht
      rcases hv with ⟨⟨limit, hv⟩, -⟩
      exact (Phrase.tame (body limit) ha hs).of_eq hv
  | stmt st =>
      cases ht
      rcases hv with ⟨⟨limit, hv⟩, -⟩
      exact (Phrase.tame (body limit) ha hs).of_eq hv
  | _ => cases ht

/-- No body of a function is run. -/
theorem Free.not_call (h : p.Free) (hq : Begins p q) : ∀ f args, p.task ≠ .call f args := by
  rcases p with ⟨t, s⟩
  rintro f args rfl
  cases hq with
  | body _ => exact h.values.1 _ (.refl _) rfl

/-- What begins inside of such a part is such a part. -/
theorem Free.begins (h : p.Free) (hq : Begins p q) : q.Free := by
  have hliterals : ∀ a ∈ q.task.phrases, a.literalFree = true := by
    have hphrases := hq.phrases (h.not_call hq)
    cases hphrase : q.task.phrase? with
    | none =>
        simp only [hphrase] at hphrases
        exact fun a ha => h.literals a (hphrases a ha)
    | some b =>
        simp only [hphrase] at hphrases
        rw [hphrases.2]
        exact (Phrase.literalFree_iff.mp (h.literals b hphrases.1)).2
  rcases h with ⟨hs, hvalues, hfree⟩
  suffices hq : q.store.FunctionFree ∧ q.task.Over Value.FunctionFree from
    ⟨hq.1, hq.2, hliterals⟩
  -- Parts differ in what has been evaluated before they begin.
  cases hq with
  | body _ => exact absurd rfl (hvalues.1 _ (.refl _))
  | right hv | index hv | others hv | arguments hv | value hv _ | statements hv =>
      exact ⟨(hv.functionFree rfl (hfree _ List.mem_cons_self) hs).1, trivial⟩
  | @consequence e b d _ _ _ hv _ =>
      have he : Phrase.expr e ∈ (Phrase.expr (.cond e b d)).parts := by
        cases d <;> exact List.mem_cons_self
      exact ⟨(hv.functionFree rfl (hfree _ he) hs).1, Value.functionFree_null⟩
  | alternative hv _ =>
      exact ⟨(hv.functionFree rfl (hfree _ List.mem_cons_self) hs).1, Value.functionFree_null⟩
  | @application e es s s₁ _ _ _ limit hv hargs =>
      rcases hv.functionFree rfl (hfree _ List.mem_cons_self) hs with ⟨hs₁, hf⟩
      have htame : ∀ e ∈ es, ∀ s : Store, s.FunctionFree →
          Tame s (e.eval (body limit)) Value.FunctionFree := fun e he s hs =>
        Phrase.tame _ (hfree (.expr e) (List.mem_cons_of_mem _ (List.mem_map_of_mem he))) hs
      rcases (tame_list htame hs₁).of_eq hargs with ⟨hs₂, hvs⟩
      exact ⟨hs₂, hf, hvs⟩
  | map => exact ⟨hs, fun slot hslot => absurd hslot List.not_mem_nil⟩
  | slot hk _ hv =>
      rcases hk.functionFree rfl (hfree _ List.mem_cons_self) hs with ⟨hs₁, hk⟩
      rcases hv.functionFree rfl (hfree _ (List.mem_cons_of_mem _ List.mem_cons_self)) hs₁
        with ⟨hs₂, hv⟩
      exact ⟨hs₂, FreeSlots.insert hvalues hk hv⟩
  | next hv => exact hv.functionFree rfl (hfree _ List.mem_cons_self) hs
  | _ => exact ⟨hs, trivial⟩

/-- The pieces of syntax that are under evaluation when a part begins, from the
    innermost one outwards. What carries on with a piece is not counted again, and
    the body of a function is, wherever the function was made. -/
inductive Stacked (p : Point) : List Phrase → Point → Prop where
  | start : Stacked p [] p
  | begins {stack : List Phrase} {q r : Point} (h : Stacked p stack q) (hr : Begins q r) :
    Stacked p (r.task.position stack) r

end Point

namespace Program

/-- How many pieces of syntax are inside of one another in a program at most. -/
def depth (program : Block) : Nat :=
  (program.map fun st => (Phrase.stmt st).depth).max?.getD 0

end Program

namespace Position

variable {program : Block} {position : List Phrase}

/-- What stands further in is less deep. -/
theorem In.depth_le (h : In program position) :
    ∀ a ∈ parts program position, position.length + a.depth ≤ Program.depth program := by
  induction h with
  | whole =>
      intro a ha
      rcases List.mem_map.mp ha with ⟨st, hst, rfl⟩
      rw [List.length_nil, Nat.zero_add]
      exact List.le_max?_getD_of_mem (List.mem_map_of_mem hst)
  | @part position a _ ha ih =>
      intro b hb
      have hle := ih a ha
      have hlt := Phrase.depth_lt_of_mem_parts hb
      rw [List.length_cons]
      omega

/-- No position is longer than the program is deep. -/
theorem In.length_le (h : In program position) : position.length ≤ Program.depth program := by
  cases h with
  | whole => exact Nat.zero_le _
  | @part position a h ha =>
      have hle := h.depth_le a ha
      have hpos := a.depth_pos
      rw [List.length_cons]
      omega

end Position

namespace Point

variable {program : Block} {s : Store} {stack : List Phrase} {p : Point}

/-- The pieces of syntax under evaluation are a position in the program. -/
theorem Stacked.inProgram (hfree : Point.Free ⟨.statements program, s⟩)
    (h : Stacked ⟨.statements program, s⟩ stack p) :
    p.Free ∧ Position.In program stack ∧
      ∀ a ∈ p.task.phrases, a ∈ Position.parts program stack := by
  induction h with
  | start => exact ⟨hfree, .whole, fun a ha => ha⟩
  | @begins stack q r _ hr ih =>
      rcases ih with ⟨hq, hin, hparts⟩
      have hphrases := hr.phrases (hq.not_call hr)
      refine ⟨hq.begins hr, ?_⟩
      unfold Task.position
      cases hphrase : r.task.phrase? with
      | none =>
          simp only [hphrase] at hphrases
          exact ⟨hin, fun a ha => hparts a (hphrases a ha)⟩
      | some a =>
          simp only [hphrase] at hphrases
          refine ⟨.part hin (hparts a hphrases.1), fun b hb => ?_⟩
          rw [hphrases.2] at hb
          exact hb

end Point

/-- The statements of a program without function literals come to an end. If there
    is an error then it is recorded, and nothing else is. -/
theorem Program.evalFrom_functionFree (run : BodyRunner) {program : Block} {s : Store}
    {last : Option Value} (hprogram : ∀ st ∈ program, (Phrase.stmt st).literalFree = true)
    (hs : s.FunctionFree) (hlast : ∀ v, last = some v → v.FunctionFree) :
    ∃ result s', Program.evalFrom run last program s = some (result, s') ∧
      (∀ v, result = some v → v.FunctionFree) ∧ s'.FunctionFree ∧ s'.current = s.current ∧
      s'.scopes.size = s.scopes.size ∧
      (s'.journal = s.journal ∨ ∃ cause, s'.journal = .stopped cause :: s.journal) := by
  induction program generalizing s last with
  | nil => exact ⟨last, s, rfl, hlast, hs, rfl, rfl, .inl rfl⟩
  | cons st ss ih =>
      rcases List.forall_mem_cons.mp hprogram with ⟨hst, hss⟩
      rcases Phrase.tame run hst hs with ⟨v, s₁, hv, hkept, hs₁, hfree⟩
      cases v with
      | returned id inner =>
          refine ⟨some inner, s₁, Option.bind_eq_some_iff.mpr ⟨_, hv, rfl⟩, fun w hw u hu => ?_,
            hs₁, hkept.current, hkept.size, .inl hkept.journal⟩
          rw [← Option.some.inj hw] at hu
          exact hfree u (.inner hu)
      | error id cause =>
          refine ⟨some (.error id cause), { s₁ with journal := .stopped cause :: s₁.journal },
            Option.bind_eq_some_iff.mpr ⟨_, hv, rfl⟩, fun w hw => Option.some.inj hw ▸ hfree,
            hs₁.of_eq rfl rfl, hkept.current, hkept.size, .inr ⟨cause, ?_⟩⟩
          exact congrArg (List.cons _) hkept.journal
      | _ =>
          rcases ih hss hs₁ fun w hw => Option.some.inj hw ▸ hfree with
            ⟨result, s', hrest, hresult, hs', hcurrent, hsize, hjournal⟩
          rw [hkept.journal] at hjournal
          exact ⟨result, s', Option.bind_eq_some_iff.mpr ⟨_, hv, hrest⟩, hresult, hs',
            hcurrent.trans hkept.current, hsize.trans hkept.size, hjournal⟩

/-- Without a function, a program without function literals comes to an end. It has
    the same result whatever the limit for nested calls is, no function is in the
    result and none is to be found afterwards. No scope has been added, and the
    journal records no call; if anything is recorded then it is the error that the
    program has ended with. At no moment are there more pieces of syntax under
    evaluation than are inside of one another in the program, and whatever is called
    is no function. -/
theorem program_ends_of_functionFree {program : Block} {s : Store} {scope : ScopeId}
    (hprogram : ∀ st ∈ program, (Phrase.stmt st).literalFree = true)
    (hs : (s.enter scope).FunctionFree) :
    (∃ result s', (∀ limit, Program.eval limit scope program s = some (result, s')) ∧
      (∀ v, result = some v → v.FunctionFree) ∧ s'.FunctionFree ∧ s'.current = scope ∧
      s'.scopes.size = s.scopes.size ∧
      (s'.journal = s.journal ∨ ∃ cause, s'.journal = .stopped cause :: s.journal)) ∧
    ∀ stack p, Point.Stacked ⟨.statements program, s.enter scope⟩ stack p →
      Position.In program stack ∧ stack.length ≤ Program.depth program ∧
        ∀ f args, p.task = .call f args → f.type ≠ .function := by
  constructor
  · -- No body is run, so a limit of zero is enough.
    have hnone : ∀ v, (none : Option Value) = some v → v.FunctionFree := nofun
    rcases Program.evalFrom_functionFree (body 0) hprogram hs hnone with ⟨result, s', heval, hrest⟩
    have hzero : Program.eval 0 scope program s = some (result, s') := heval
    exact ⟨result, s',
      fun limit => Program.eval_mono (Nat.zero_le limit) scope program s _ hzero, hrest⟩
  · intro stack p hstack
    have hliterals : ∀ a ∈ program.map Phrase.stmt, a.literalFree = true :=
      List.forall_mem_map.mpr hprogram
    have hfree : Point.Free ⟨.statements program, s.enter scope⟩ := ⟨hs, trivial, hliterals⟩
    rcases hstack.inProgram hfree with ⟨hp, hin, -⟩
    refine ⟨hin, hin.length_le, fun f args htask => ?_⟩
    have hvalues := hp.values
    rw [htask] at hvalues
    exact hvalues.1 f (.refl f)

/-- A store with a builtin in an array, and with a function in a scope that no name
    is looked up in from the other one. -/
def hidingStore : Store :=
  { Store.empty with
    scopes := #[⟨[("xs", .array 4 [.builtin 3 .len])], none⟩, ⟨[("f", .fn 5 [] [] 1)], some 0⟩]
    nextId := 6 }

/-- A program that calls what it finds, binds what it makes, and ends with the
    call of a map:
    `let n = xs[0](xs); if (n == 1) { let xs = push(xs, {true: first}) }; xs[1](n)`. -/
def findingProgram : Block :=
  [.bind "n" (.call (.index (.ident "xs") (.int 0)) [.ident "xs"]),
    .expr (.cond (.binary .equal (.ident "n") (.int 1))
      [.bind "xs" (.call (.ident "push") [.ident "xs", .map [(.bool true, .ident "first")]])] none),
    .expr (.call (.index (.ident "xs") (.int 1)) [.ident "n"])]

theorem program_ends_of_functionFree_findingProgram :
    (∀ st ∈ findingProgram, (Phrase.stmt st).literalFree = true) ∧
      (hidingStore.enter 0).FunctionFree ∧ Program.depth findingProgram = 6 ∧
      (∃ result s', (∀ limit, Program.eval limit 0 findingProgram hidingStore = some (result, s')) ∧
        result.map Value.type = some .error ∧ s'.journal = [.stopped (.notAFunction .map)] ∧
        s'.FunctionFree ∧ s'.scopes.size = 2) ∧
      ∀ stack p, Point.Stacked ⟨.statements findingProgram, hidingStore.enter 0⟩ stack p →
        stack.length ≤ 6 := by
  have hprogram : ∀ st ∈ findingProgram, (Phrase.stmt st).literalFree = true := by
    decide +kernel
  have hdepth : Program.depth findingProgram = 6 := by decide +kernel
  have hchain : (hidingStore.enter 0).chain (hidingStore.enter 0).current
      = [⟨[("xs", .array 4 [.builtin 3 .len])], none⟩] := by
    rw [Store.chain]
    rfl
  have hs : (hidingStore.enter 0).FunctionFree := by
    rw [Store.FunctionFree, hchain]
    simp only [List.forall_mem_singleton]
    intro u hu
    cases hu with
    | refl => decide
    | element he hu =>
      obtain rfl := List.mem_singleton.mp he
      cases hu
      decide
  have hstopped : (Program.eval 0 0 findingProgram hidingStore).map
      (fun p => (p.1.map Value.type, p.2.journal))
        = some (some .error, [.stopped (.notAFunction .map)]) := by
    decide +kernel
  rcases program_ends_of_functionFree hprogram hs with
    ⟨⟨result, s', heval, -, hs', -, hsize, -⟩, hstacked⟩
  rw [heval 0, Option.map_some, Option.some.injEq, Prod.mk.injEq] at hstopped
  exact ⟨hprogram, hs, hdepth, ⟨result, s', heval, hstopped.1, hstopped.2, hs', hsize⟩,
    fun stack p h => hdepth ▸ (hstacked stack p h).2.1⟩

end Monkey
