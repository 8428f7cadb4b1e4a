import Monkey.Value

/-!
# The Store

What outlives an expression: scopes, and the numbers that are still free.

One scope is the current one. Names are looked up from it outwards and bound
in it, and a new function remembers it. A call moves to a scope of its own
and has to move back when it is over, however it ends.

A scope binds names to values. It may be enclosed by another scope, in which
a name is looked up if the scope itself does not bind it. Scopes are told
apart by numbers and are never removed, because a function keeps the scope it
was made in alive for as long as the function exists; binding a name changes
a scope for everyone who knows its number.

A scope is enclosed by a scope that was there before it. The walk outwards
therefore meets smaller and smaller numbers, which is also how `Store.chain`
knows that it ends: a link that does not lead to a smaller number is not
followed.

The store also keeps a journal: the text that was printed, and which calls
and errors happened.

## Main definitions

* `Scope`: Bindings and the enclosing scope.
* `Event`: What the journal records besides text.
* `Store`: All scopes and the current one, the next free number and the
  journal.
* `Store.chain`: The scopes from a scope outwards.
* `Store.get?`: What a name is bound to in a scope or around it.
* `Store.depth`: How many scopes there are from a scope outwards.
* `Store.addScope`, `Store.set`: A new scope, and a new binding.
* `Store.enter`: Another current scope.

## Theorems

* `Bindings.find?_insert_self`: A name is found with its latest value.
* `Bindings.find?_insert_of_ne`: Binding a name leaves the others alone.
* `Bindings.mem_insert`: The bindings after a name was bound.
-/

namespace Monkey

namespace Bindings

/-- The bindings with the given name bound to the given value. A name is
    bound at most once, so an earlier value of it is replaced. -/
def insert (name : String) (value : Value) : List (String × Value) → List (String × Value)
  | [] => [(name, value)]
  | (n, v) :: rest =>
    if n = name then (name, value) :: rest else (n, v) :: insert name value rest

/-- What a name is bound to. -/
def find? (name : String) (bindings : List (String × Value)) : Option Value :=
  bindings.lookup name

/-- A name that was just bound is found with its new value. -/
theorem find?_insert_self (name : String) (value : Value) (bindings : List (String × Value)) :
    find? name (insert name value bindings) = some value := by
  unfold find?
  induction bindings with
  | nil => simp only [insert, List.lookup_cons, beq_self_eq_true]
  | cons b rest ih =>
      rcases b with ⟨n, v⟩
      rw [insert]
      by_cases hn : n = name
      · rw [if_pos hn, List.lookup_cons, beq_self_eq_true]
      · rw [if_neg hn, List.lookup_cons, beq_false_of_ne (Ne.symm hn)]
        exact ih

/-- Binding a name leaves every other name as it was. -/
theorem find?_insert_of_ne {name other : String} (h : other ≠ name) (value : Value)
    (bindings : List (String × Value)) :
    find? other (insert name value bindings) = find? other bindings := by
  unfold find?
  induction bindings with
  | nil => rw [insert, List.lookup_cons, beq_false_of_ne h]
  | cons b rest ih =>
      rcases b with ⟨n, v⟩
      rw [insert]
      by_cases hn : n = name
      · rw [if_pos hn, List.lookup_cons, List.lookup_cons, hn, beq_false_of_ne h]
      · rw [if_neg hn, List.lookup_cons, List.lookup_cons, ih]

/-- A binding that is there after a name was bound is the new one or was there
    before. -/
theorem mem_insert {name : String} {value : Value} {bindings : List (String × Value)}
    {b : String × Value} (h : b ∈ insert name value bindings) :
    b = (name, value) ∨ b ∈ bindings := by
  induction bindings with
  | nil => exact .inl (List.mem_singleton.mp h)
  | cons first rest ih =>
      rcases first with ⟨n, v⟩
      unfold insert at h
      split at h
      · rcases List.mem_cons.mp h with heq | hmem
        · exact .inl heq
        · exact .inr (List.mem_cons_of_mem _ hmem)
      · rcases List.mem_cons.mp h with heq | hmem
        · exact .inr (heq ▸ List.mem_cons_self)
        · exact (ih hmem).imp_right (List.mem_cons_of_mem _)

end Bindings

/-- Bindings and the scope around them. -/
structure Scope where
  /-- The names that are bound here, each with its value. -/
  bindings : List (String × Value)
  /-- The scope in which a name is looked up that is not bound here. -/
  outer : Option ScopeId

instance : Inhabited Scope := ⟨⟨[], none⟩⟩

/-- What the journal records besides text. -/
inductive Event where
  /-- A function was called; its scope has the given depth. -/
  | called (depth : Nat)
  /-- An error stopped a program. -/
  | stopped (cause : RuntimeError)
  deriving DecidableEq, Repr

/-- What outlives an expression. -/
structure Store where
  /-- The scopes by their numbers. -/
  scopes : Array Scope
  /-- The scope that evaluation takes place in. -/
  current : ScopeId
  /-- The number of the next object. -/
  nextId : ObjectId
  /-- The text that was printed. -/
  output : String
  /-- What happened, the latest first. -/
  journal : List Event

namespace Store

/-- A store without scopes. The number of the current one is yet to be
    taken, and of the numbers of objects those of the shared ones are. -/
def empty : Store :=
  ⟨#[], 0, Value.shared.length, "", []⟩

/-- The scopes from a scope outwards, itself first. -/
def chain (store : Store) (scope : ScopeId) : List Scope :=
  match store.scopes[scope]? with
  | none => []
  | some here =>
    match here.outer with
    | none => [here]
    -- A scope is only ever made behind the one around it, so this never ends the walk early.
    | some outer => if outer < scope then here :: store.chain outer else [here]
termination_by scope

/-- What a name is bound to in the nearest scope that binds it. -/
def get? (store : Store) (scope : ScopeId) (name : String) : Option Value :=
  (store.chain scope).findSome? fun s => Bindings.find? name s.bindings

/-- How many scopes there are from a scope outwards, itself included. -/
def depth (store : Store) (scope : ScopeId) : Nat :=
  (store.chain scope).length

/-- Adds a scope without bindings, enclosed by the given one if there is
    one. -/
def addScope (store : Store) (outer : Option ScopeId) : ScopeId × Store :=
  (store.scopes.size, { store with scopes := store.scopes.push ⟨[], outer⟩ })

/-- Binds a name in a scope. Bindings of the name in other scopes stay. -/
def set (store : Store) (scope : ScopeId) (name : String) (value : Value) : Store :=
  { store with
    scopes := store.scopes.modify scope fun s =>
      { s with bindings := Bindings.insert name value s.bindings } }

/-- Moves to a scope. -/
def enter (store : Store) (scope : ScopeId) : Store :=
  { store with current := scope }

/-- The store with an empty journal and nothing printed yet. -/
def clearJournal (store : Store) : Store :=
  { store with output := "", journal := [] }

end Store

end Monkey
