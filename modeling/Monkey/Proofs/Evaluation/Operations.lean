import Monkey.Eval

/-!
# What Operations Do to the Store

The scopes in a store, and who changes them.

Only two operations of the language touch scopes. A binding changes the scope
it is made in, and a call adds a scope and fills it with the arguments. All
others are simple: they look at the store, take numbers and print lines, and
that is all. So they leave the scopes and the current one alone, for which
they are called quiet, and none of them fails to have a result.

A call looks at the scope it is made from only to come back to it. The store
in which a body starts, `Store.calling`, is therefore the same from wherever
the function is called, and a call is nothing but a run of the body from that
store, between two moves of the current scope (`call_fn`).

## Main definitions

* `Eval.Quiet`: Leaves the scopes and the current one alone.
* `Eval.Simple`: Looks at the store, takes numbers and prints lines.
* `Store.setAll`: Several new bindings in one scope.
* `Store.calling`: The store in which the body of a function starts.

## Theorems

* `Eval.Simple.result`, `Eval.Simple.quiet`: What simple operations do.
* `Eval.simple_unary`, `Builtin.simple_apply` and the like: Simple operations.
* `Store.set_scopes_of_ne`: A binding leaves the other scopes alone.
* `Store.setAll_keeps`: What a binding keeps, several of them keep.
* `Store.mem_chain`: The walk outwards meets scopes of the store.
* `Store.chain_of_eq`: The walk outwards looks at nothing but the scopes.
* `Store.calling_scopes_of_lt`: A call leaves the scopes alone that are there.
* `Store.calling_enter`: A call starts in the same store from everywhere.
* `Eval.call_fn`: A call is a run of the body.
-/

namespace Monkey

namespace Eval

variable {α β : Type}

/-- Leaves the scopes and the current one alone. -/
def Quiet (m : Eval α) : Prop :=
  ∀ s a s', m s = some (a, s') → s'.scopes = s.scopes ∧ s'.current = s.current

/-- An evaluation that is made of looks at the store, of numbers that are taken
    and of lines that are printed. -/
inductive Simple : {α : Type} → Eval α → Prop where
  /-- A value. -/
  | pure {α : Type} (a : α) : Simple (Pure.pure a)
  /-- A look at the store. -/
  | get : Simple MonadState.get
  /-- A number. -/
  | newId : Simple newId
  /-- A line. -/
  | printLine (line : String) : Simple (printLine line)
  /-- One evaluation after another. -/
  | bind {α β : Type} {m : Eval α} {f : α → Eval β} (hm : Simple m) (hf : ∀ a, Simple (f a)) :
    Simple (m >>= f)

/-- A simple evaluation has a result, and it is quiet. -/
theorem Simple.result {m : Eval α} (h : Simple m) (s : Store) :
    ∃ a s', m s = some (a, s') ∧ s'.scopes = s.scopes ∧ s'.current = s.current := by
  induction h generalizing s with
  | pure | get | newId | printLine => exact ⟨_, _, rfl, rfl, rfl⟩
  | bind _ _ ihfirst ihrest =>
      rcases ihfirst s with ⟨a, s', hfirst, hscopes, hcurrent⟩
      rcases ihrest a s' with ⟨b, s'', hrest, hscopes', hcurrent'⟩
      exact ⟨b, s'', Option.bind_eq_some_iff.mpr ⟨(a, s'), hfirst, hrest⟩,
        hscopes'.trans hscopes, hcurrent'.trans hcurrent⟩

theorem Simple.quiet {m : Eval α} (h : Simple m) : Quiet m := by
  intro s a s' hresult
  rcases h.result s with ⟨b, s'', hfound, hscopes, hcurrent⟩
  rcases Prod.mk.inj (Option.some.inj (hresult.symm.trans hfound)) with ⟨rfl, rfl⟩
  exact ⟨hscopes, hcurrent⟩

/-- Whatever makes an object is simple, since all it takes is a number. -/
theorem simple_new (f : ObjectId → Value) : Simple (newId >>= fun id => Pure.pure (f id)) :=
  .bind .newId fun id => .pure (f id)

theorem simple_newError (cause : RuntimeError) : Simple (newError cause) :=
  simple_new _

theorem simple_ident (name : String) : Simple (ident name) := by
  refine .bind .get fun store => ?_
  split
  · exact .pure _
  · split
    · exact simple_new _
    · exact simple_newError _

theorem simple_closure (params : List String) (body : Block) : Simple (closure params body) :=
  .bind .get fun _ => simple_new _

theorem simple_unary (op : Kind) (v : Value) : Simple (unary op v) := by
  unfold unary
  split
  · exact .pure _
  · exact simple_new _
  · exact simple_newError _

theorem simple_arithmetic (op : Kind) (m n : Int64) : Simple (arithmetic op m n) := by
  unfold arithmetic
  split
  · exact simple_new _
  · exact simple_new _
  · exact simple_new _
  · split
    · exact simple_newError _
    · exact simple_new _
  · exact .pure _
  · exact .pure _
  · exact .pure _
  · exact .pure _
  · exact simple_newError _

theorem simple_compare (op : Kind) (v w : Value) : Simple (compare op v w) := by
  unfold compare
  split
  · exact .pure _
  · exact .pure _
  · split <;> exact simple_newError _

theorem simple_binary (op : Kind) (v w : Value) : Simple (binary op v w) := by
  unfold binary
  split
  · exact simple_arithmetic op _ _
  · split
    · exact simple_new _
    · exact simple_compare op _ _
  · exact simple_compare op _ _

theorem simple_index (v w : Value) : Simple (index v w) := by
  unfold index
  split
  · exact .pure _
  · split
    · exact .pure _
    · exact simple_newError _
  · exact simple_newError _

end Eval

namespace Builtin

open Eval

theorem simple_yielding {m : Eval Value} (h : Simple m) : Simple (yielding m) :=
  h.bind fun _ => .pure _

theorem simple_withOne {next : Value → Eval Answer} (h : ∀ v, Simple (next v)) (args : List Value) :
    Simple (withOne args next) := by
  unfold withOne
  split
  · exact h _
  · exact .pure _

theorem simple_withElements {next : List Value → Eval Answer} (h : ∀ vs, Simple (next vs))
    (b : Builtin) (args : List Value) : Simple (withElements b args next) := by
  refine simple_withOne (fun v => ?_) args
  split
  · exact h _
  · exact .pure _

theorem simple_printAll (vs : List Value) : Simple (printAll vs) := by
  induction vs with
  | nil => exact .pure ()
  | cons v vs ih => exact .bind (.printLine v.text) fun _ => ih

/-- What is pushed has to be one value, onto one array. -/
theorem push_of_length {args : List Value} (h : args.length ≠ 2) :
    push.apply args = refuse (.badArity 2 args.length) := by
  simp only [apply]
  split
  · exact absurd rfl h
  · exact absurd rfl h
  · rfl

/-- A builtin has no scope and changes none, and it always answers. -/
theorem simple_apply (b : Builtin) (args : List Value) : Simple (b.apply args) := by
  cases b with
  | len =>
      refine simple_withOne (fun v => ?_) args
      split
      · exact simple_yielding (simple_new _)
      · exact simple_yielding (simple_new _)
      · exact .pure _
  | type => exact simple_withOne (fun _ => simple_yielding (simple_new _)) args
  | first => exact simple_withElements (fun _ => .pure _) _ args
  | last => exact simple_withElements (fun _ => .pure _) _ args
  | rest =>
      refine simple_withElements (fun vs => ?_) _ args
      split
      · exact .pure _
      · exact simple_yielding (simple_new _)
  | push =>
      simp only [apply]
      split
      · exact simple_yielding (simple_new _)
      · exact .pure _
      · exact .pure _
  | puts => exact (simple_printAll args).bind fun _ => .pure _

end Builtin

namespace Store

/-- A binding leaves the other scopes alone. -/
theorem set_scopes_of_ne {store : Store} {scope i : ScopeId} (h : i ≠ scope) (name : String)
    (v : Value) : (store.set scope name v).scopes[i]? = store.scopes[i]? := by
  simp only [set, Array.getElem?_modify, if_neg (Ne.symm h)]

/-- A binding encloses no scope by another one. -/
theorem set_outer (store : Store) (scope : ScopeId) (name : String) (v : Value) (i : ScopeId) :
    ((store.set scope name v).scopes[i]?).map Scope.outer
      = (store.scopes[i]?).map Scope.outer := by
  simp only [set, Array.getElem?_modify]
  split
  · cases store.scopes[i]? <;> rfl
  · rfl

theorem set_size (store : Store) (scope : ScopeId) (name : String) (v : Value) :
    (store.set scope name v).scopes.size = store.scopes.size :=
  Array.size_modify

/-- Binds names in a scope, from the first to the last. -/
def setAll (store : Store) (scope : ScopeId) (bindings : List (String × Value)) : Store :=
  bindings.foldl (fun store b => store.set scope b.1 b.2) store

/-- What a binding keeps, several of them keep. -/
theorem setAll_keeps {β : Type} (f : Store → β) {scope : ScopeId}
    (h : ∀ store name v, f (set store scope name v) = f store)
    (bindings : List (String × Value)) (store : Store) :
    f (store.setAll scope bindings) = f store := by
  induction bindings generalizing store with
  | nil => rfl
  | cons b bindings ih => exact (ih (store.set scope b.1 b.2)).trans (h store b.1 b.2)

theorem setAll_scopes_of_ne {scope i : ScopeId} (h : i ≠ scope)
    (bindings : List (String × Value)) (store : Store) :
    (store.setAll scope bindings).scopes[i]? = store.scopes[i]? :=
  setAll_keeps (fun store => store.scopes[i]?) (fun _ => set_scopes_of_ne h) bindings store

theorem setAll_size (scope : ScopeId) (bindings : List (String × Value)) (store : Store) :
    (store.setAll scope bindings).scopes.size = store.scopes.size :=
  setAll_keeps (fun store => store.scopes.size) (fun store => set_size store scope) bindings store

theorem setAll_current (scope : ScopeId) (bindings : List (String × Value)) (store : Store) :
    (store.setAll scope bindings).current = store.current :=
  setAll_keeps current (fun _ _ _ => rfl) bindings store

theorem setAll_enter (scope caller : ScopeId) (bindings : List (String × Value)) (store : Store) :
    (store.enter caller).setAll scope bindings = (store.setAll scope bindings).enter caller := by
  induction bindings generalizing store with
  | nil => rfl
  | cons b bindings ih => exact ih (store.set scope b.1 b.2)

/-- The walk outwards meets scopes of the store only. -/
theorem mem_chain {store : Store} {scope : ScopeId} {found : Scope}
    (h : found ∈ store.chain scope) : ∃ i : ScopeId, store.scopes[i]? = some found := by
  induction scope using Nat.strongRecOn with
  | ind scope ih =>
      -- Each step outwards leads to a smaller number, or the walk ends.
      rw [chain] at h
      cases hhere : store.scopes[scope]? with
      | none =>
          rw [hhere] at h
          exact absurd h List.not_mem_nil
      | some here =>
          simp only [hhere] at h
          split at h
          · exact ⟨scope, by rw [hhere, List.mem_singleton.mp h]⟩
          · rename_i outer _
            split at h
            · rename_i hlt
              rcases List.mem_cons.mp h with rfl | hmem
              · exact ⟨scope, hhere⟩
              · exact ih outer hlt hmem
            · exact ⟨scope, by rw [hhere, List.mem_singleton.mp h]⟩

/-- Who is enclosed by whom, and what is bound there, depends on nothing but the
    scopes. -/
theorem chain_of_eq {store store' : Store} (h : store'.scopes = store.scopes) (scope : ScopeId) :
    store'.chain scope = store.chain scope := by
  induction scope using Nat.strongRecOn with
  | ind scope ih =>
      rw [chain, chain, h]
      cases store.scopes[scope]? with
      | none => rfl
      | some here =>
          cases houter : here.outer with
          | none => simp only [houter]
          | some outer =>
              by_cases hlt : outer < scope
              · simp only [houter, if_pos hlt, ih outer hlt]
              · simp only [houter, if_neg hlt]

/-- The store in which the body of a function starts that was made in a scope
    and is given some bindings. -/
def calling (store : Store) (outer : ScopeId) (bindings : List (String × Value)) : Store :=
  let opened := (store.addScope (some outer)).2.setAll store.scopes.size bindings
  { opened with
    journal := .called (opened.depth store.scopes.size) :: opened.journal
    current := store.scopes.size }

/-- A call leaves the scopes alone that are there. -/
theorem calling_scopes_of_lt {store : Store} {i : ScopeId} (h : i < store.scopes.size)
    (outer : ScopeId) (bindings : List (String × Value)) :
    (store.calling outer bindings).scopes[i]? = store.scopes[i]? := by
  refine (setAll_scopes_of_ne (Nat.ne_of_lt h) bindings _).trans ?_
  exact (Array.getElem?_push_lt h).trans (Array.getElem?_eq_getElem h).symm

theorem calling_size (store : Store) (outer : ScopeId) (bindings : List (String × Value)) :
    (store.calling outer bindings).scopes.size = store.scopes.size + 1 :=
  (setAll_size store.scopes.size bindings _).trans (Array.size_push ..)

/-- A call starts in the same store from everywhere. -/
theorem calling_enter (store : Store) (caller outer : ScopeId)
    (bindings : List (String × Value)) :
    (store.enter caller).calling outer bindings = store.calling outer bindings := by
  -- The current scope is overwritten, and nothing before that has looked at it.
  have hopened : ((store.enter caller).addScope (some outer)).2.setAll store.scopes.size bindings
      = ((store.addScope (some outer)).2.setAll store.scopes.size bindings).enter caller :=
    setAll_enter store.scopes.size caller bindings (store.addScope (some outer)).2
  unfold calling
  rw [show (store.enter caller).scopes.size = store.scopes.size from rfl, hopened]
  have hchain : ∀ opened : Store, (opened.enter caller).chain = opened.chain :=
    fun opened => funext (chain_of_eq rfl)
  simp only [depth, hchain]
  rfl

end Store

namespace Eval

theorem bindAll_eq (scope : ScopeId) (bindings : List (String × Value)) (store : Store) :
    bindAll scope bindings store = some ((), store.setAll scope bindings) := by
  induction bindings generalizing store with
  | nil => rfl
  | cons b bindings ih => exact ih (store.set scope b.1 b.2)

/-- A function is not called with too few or too many arguments. -/
theorem call_fn_of_length (run : BodyRunner) (id : ObjectId) {params : List String} (body : Block)
    (outer : ScopeId) {args : List Value} (h : args.length ≠ params.length) :
    call run (.fn id params body outer) args
      = newError (.badArity params.length args.length) :=
  if_neg h

/-- A call that is not that of a function with enough arguments. -/
theorem simple_call {run : BodyRunner} {f : Value} {args : List Value}
    (h : ∀ id params body outer, f = .fn id params body outer → args.length ≠ params.length) :
    Simple (call run f args) := by
  cases f with
  | fn id params body outer =>
      rw [call_fn_of_length run id body outer (h id params body outer rfl)]
      exact simple_newError _
  | builtin id b =>
      refine (Builtin.simple_apply b args).bind fun answer => ?_
      cases answer with
      | ok v => exact .pure v
      | error cause => exact simple_newError cause
  | _ => exact simple_newError _

/-- A call is a run of the body from the store in which it starts, and a move
    back to the scope that was current before. -/
theorem call_fn (run : BodyRunner) (id : ObjectId) {params : List String} (body : Block)
    (outer : ScopeId) {args : List Value} (h : args.length = params.length) (store : Store) :
    call run (.fn id params body outer) args store =
      (run body (store.calling outer (params.zip args))).map fun p =>
        (arrived p.1, p.2.enter store.current) := by
  unfold call
  simp only [if_pos h]
  -- What comes before the body never fails, so the store in which it starts can be named.
  change (bindAll store.scopes.size (params.zip args) (store.addScope (some outer)).2).bind _ = _
  rw [bindAll_eq]
  change (run body (store.calling outer (params.zip args))).bind (fun p =>
    some (arrived p.1, p.2.enter
      ((store.addScope (some outer)).2.setAll store.scopes.size (params.zip args)).current)) = _
  rw [Store.setAll_current]
  cases run body (store.calling outer (params.zip args)) <;> rfl

end Eval

end Monkey
