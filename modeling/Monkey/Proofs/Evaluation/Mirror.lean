import Mathlib.Order.Monotone.Basic
import Monkey.Proofs.Evaluation.Operations
import Monkey.Proofs.Values.Numbers

/-!
# Mirrored Stores

What a store looks like when the same is done once more.

Something that was done in one store is done again in a later one. Whatever
there was at the beginning of the first time is still there, under its number.
What was made since has numbers of its own, so what is made the second time has
to have others: each number from the first free one on is replaced by one that
is greater, and all of them by the same difference. Two numbers keep their
order that way. Hence different objects stay different, and a scope stays
behind the one around it, which is all that a program can find out about
numbers. The shared objects have been there from the beginning, and keep theirs.

A store of the second time mirrors one of the first time if it has the same
contents under these other numbers, and if the same has been printed and
recorded since the beginning. It has more scopes, those that the first time has
left behind, but no number that is in use leads to them.

## Main definitions

* `Rerun`: The stores in which something is done first and again.
* `Rerun.object`, `Rerun.scope`, `Rerun.value`: Other numbers.
* `Rerun.Mirrors`: A store of the second time has the contents of one of the
  first.

## Theorems

* `Rerun.Mirrors.get?`: A name is bound to the same in both.
* `Rerun.Mirrors.depth`: Scopes are as deep in both.
* `Rerun.Mirrors.set`, `Rerun.Mirrors.calling` and the like: Changes.
-/

namespace Monkey

/-- A number that was free at first, moved by as much as has been used up
    since. -/
def Rerun.move (first second i : Nat) : Nat :=
  if i < first then i else i + (second - first)

/-- The stores in which something is done for the first time and done again. -/
structure Rerun where
  /-- The store in which it is done for the first time. -/
  first : Store
  /-- The store in which it is done again. -/
  second : Store
  /-- The shared objects have the same numbers both times. -/
  shared : ∀ i < Value.shared.length, Rerun.move first.nextId second.nextId i = i

namespace Rerun

section

variable {first second i j : Nat}

theorem move_of_lt (h : i < first) : move first second i = i :=
  if_pos h

theorem move_self (first i : Nat) : move first first i = i := by
  unfold move
  split <;> omega

theorem move_first (h : first ≤ second) : move first second first = second := by
  rw [move, if_neg (Nat.lt_irrefl first)]
  omega

theorem move_succ (h : first ≤ i) : move first second (i + 1) = move first second i + 1 := by
  rw [move, move, if_neg (by omega), if_neg (by omega)]
  omega

theorem le_move (h : first ≤ i) : second ≤ move first second i := by
  rw [move, if_neg (Nat.not_lt.mpr h)]
  omega

theorem move_lt_move (h : i < j) : move first second i < move first second j := by
  unfold move
  split <;> split <;> omega

theorem move_strictMono (first second : Nat) : StrictMono (move first second) :=
  fun _ _ => move_lt_move

end

variable (ρ : Rerun)

/-- The number that an object has the second time. -/
def object : ObjectId → ObjectId :=
  move ρ.first.nextId ρ.second.nextId

/-- The number that a scope has the second time. -/
def scope : ScopeId → ScopeId :=
  move ρ.first.scopes.size ρ.second.scopes.size

/-- What a value is the second time. -/
def value : Value → Value :=
  Value.renumber ρ.object ρ.scope

/-- What the name of a binding is bound to the second time. -/
def binding (b : String × Value) : String × Value :=
  (b.1, ρ.value b.2)

/-- What a scope is the second time. -/
def scopeOf (here : Scope) : Scope :=
  ⟨here.bindings.map ρ.binding, here.outer.map ρ.scope⟩

theorem value_array (id : ObjectId) (elements : List Value) :
    ρ.value (.array id elements) = .array (ρ.object id) (elements.map ρ.value) :=
  Value.renumber_array ρ.object ρ.scope id elements

theorem value_map (id : ObjectId) (slots : List (Slot Value)) :
    ρ.value (.map id slots) = .map (ρ.object id) (slots.map (Slot.map ρ.value)) :=
  Value.renumber_map ρ.object ρ.scope id slots

theorem value_null : ρ.value .null = .null :=
  congrArg Value.nullAt (ρ.shared 0 (by decide))

theorem value_bool (b : Bool) : ρ.value (.bool b) = .bool b :=
  congrArg (Value.boolAt · b) (ρ.shared _ (by cases b <;> decide))

theorem object_injective : Function.Injective ρ.object :=
  (move_strictMono _ _).injective

theorem scope_lt_scope {i j : ScopeId} : ρ.scope i < ρ.scope j ↔ i < j :=
  (move_strictMono _ _).lt_iff_lt

theorem scope_inj {i j : ScopeId} : ρ.scope i = ρ.scope j ↔ i = j :=
  (move_strictMono _ _).injective.eq_iff

theorem find?_binding (name : String) (bindings : List (String × Value)) :
    Bindings.find? name (bindings.map ρ.binding)
      = (Bindings.find? name bindings).map ρ.value := by
  unfold Bindings.find?
  induction bindings with
  | nil => rfl
  | cons b bindings ih =>
      rcases b with ⟨n, v⟩
      rw [List.map_cons, binding, List.lookup_cons, List.lookup_cons, ih]
      cases name == n <;> rfl

theorem insert_binding (name : String) (v : Value) (bindings : List (String × Value)) :
    Bindings.insert name (ρ.value v) (bindings.map ρ.binding)
      = (Bindings.insert name v bindings).map ρ.binding := by
  induction bindings with
  | nil => rfl
  | cons b bindings ih =>
      rcases b with ⟨n, w⟩
      rw [List.map_cons, binding, Bindings.insert, Bindings.insert, ih]
      split <;> rfl

/-- A store of the second time, with the contents of one of the first time under
    other numbers. -/
structure Mirrors (s t : Store) : Prop where
  /-- Numbers of objects are taken from the first free one on. -/
  objects_le : ρ.first.nextId ≤ s.nextId
  /-- The same number of objects has been made since. -/
  objects : t.nextId = ρ.object s.nextId
  /-- Scopes are added behind those that were there. -/
  scopes_le : ρ.first.scopes.size ≤ s.scopes.size
  /-- The same number of scopes has been added since. -/
  size : t.scopes.size = ρ.scope s.scopes.size
  /-- What a scope is the first time decides what it is the second time. -/
  scopes : ∀ i : ScopeId, t.scopes[ρ.scope i]? = (s.scopes[i]?).map ρ.scopeOf
  current : t.current = ρ.scope s.current
  /-- The same has been printed since. -/
  output : ∃ text, s.output = ρ.first.output ++ text ∧ t.output = ρ.second.output ++ text
  /-- The same has been recorded since. -/
  journal : ∃ events, s.journal = events ++ ρ.first.journal ∧
    t.journal = events ++ ρ.second.journal

namespace Mirrors

variable {ρ} {s t : Store}

/-- The walk outwards meets the same scopes. -/
theorem chain (h : ρ.Mirrors s t) (i : ScopeId) :
    t.chain (ρ.scope i) = (s.chain i).map ρ.scopeOf := by
  induction i using Nat.strongRecOn with
  | ind i ih =>
      rw [Store.chain, Store.chain, h.scopes i]
      cases s.scopes[i]? with
      | none => rfl
      | some here =>
          cases houter : here.outer with
          | none => simp only [Option.map_some, scopeOf, houter, Option.map_none, List.map_cons,
              List.map_nil]
          | some outer =>
              simp only [Option.map_some, scopeOf, houter, ρ.scope_lt_scope]
              by_cases hlt : outer < i
              · rw [if_pos hlt, if_pos hlt, ih outer hlt, List.map_cons, scopeOf, houter,
                  Option.map_some]
              · rw [if_neg hlt, if_neg hlt, List.map_cons, List.map_nil, scopeOf, houter,
                  Option.map_some]

theorem depth (h : ρ.Mirrors s t) (i : ScopeId) : t.depth (ρ.scope i) = s.depth i := by
  rw [Store.depth, Store.depth, h.chain, List.length_map]

/-- A name is bound to the same, from wherever it is looked up. -/
theorem get? (h : ρ.Mirrors s t) (i : ScopeId) (name : String) :
    t.get? (ρ.scope i) name = (s.get? i name).map ρ.value := by
  rw [Store.get?, Store.get?, h.chain, List.findSome?_map]
  induction s.chain i with
  | nil => rfl
  | cons here outwards ih =>
      rw [List.findSome?_cons, List.findSome?_cons, Function.comp_apply, scopeOf, find?_binding, ih]
      cases Bindings.find? name here.bindings <;> rfl

/-- A number is taken in both. -/
theorem take (h : ρ.Mirrors s t) :
    ρ.Mirrors { s with nextId := s.nextId + 1 } { t with nextId := t.nextId + 1 } :=
  { h with
    objects_le := Nat.le_succ_of_le h.objects_le
    objects := (congrArg (· + 1) h.objects).trans (move_succ h.objects_le).symm }

/-- The same line is printed in both. -/
theorem print (h : ρ.Mirrors s t) (line : String) :
    ρ.Mirrors { s with output := s.output ++ line ++ "\n" }
      { t with output := t.output ++ line ++ "\n" } := by
  rcases h.output with ⟨text, hs, ht⟩
  refine { h with output := ⟨text ++ line ++ "\n", ?_, ?_⟩ }
  · rw [hs, String.append_assoc, String.append_assoc, String.append_assoc]
  · rw [ht, String.append_assoc, String.append_assoc, String.append_assoc]

/-- The same event is recorded in both. -/
theorem record (h : ρ.Mirrors s t) (event : Event) :
    ρ.Mirrors { s with journal := event :: s.journal }
      { t with journal := event :: t.journal } := by
  rcases h.journal with ⟨events, hs, ht⟩
  exact { h with
    journal := ⟨event :: events, congrArg (event :: ·) hs, congrArg (event :: ·) ht⟩ }

theorem enter (h : ρ.Mirrors s t) {i j : ScopeId} (hj : j = ρ.scope i) :
    ρ.Mirrors (s.enter i) (t.enter j) :=
  { h with current := hj }

theorem set (h : ρ.Mirrors s t) (i : ScopeId) (name : String) (v : Value) :
    ρ.Mirrors (s.set i name v) (t.set (ρ.scope i) name (ρ.value v)) where
  objects_le := h.objects_le
  objects := h.objects
  scopes_le := by rw [Store.set_size]; exact h.scopes_le
  size := by rw [Store.set_size, Store.set_size]; exact h.size
  scopes j := by
    simp only [Store.set, Array.getElem?_modify, ρ.scope_inj, h.scopes j]
    by_cases hj : i = j
    · rw [if_pos hj, if_pos hj, Option.map_map, Option.map_map]
      refine congrArg (fun f => Option.map f s.scopes[j]?) (funext fun here => ?_)
      exact congrArg (Scope.mk · _) (ρ.insert_binding name v here.bindings)
    · rw [if_neg hj, if_neg hj]
  current := h.current
  output := h.output
  journal := h.journal

theorem setAll (i : ScopeId) (bindings : List (String × Value)) (h : ρ.Mirrors s t) :
    ρ.Mirrors (s.setAll i bindings) (t.setAll (ρ.scope i) (bindings.map ρ.binding)) := by
  induction bindings generalizing s t with
  | nil => exact h
  | cons b bindings ih => exact ih (h.set i b.1 b.2)

/-- A scope is added at the end in both. -/
theorem addScope (h : ρ.Mirrors s t) (outer : ScopeId) :
    ρ.Mirrors (s.addScope (some outer)).2 (t.addScope (some (ρ.scope outer))).2 where
  objects_le := h.objects_le
  objects := h.objects
  scopes_le := by
    rw [Store.addScope, Array.size_push]
    exact Nat.le_succ_of_le h.scopes_le
  size := by
    simp only [Store.addScope, Array.size_push]
    rw [h.size]
    exact (move_succ h.scopes_le).symm
  scopes i := by
    simp only [Store.addScope, Array.getElem?_push, h.size, ρ.scope_inj, h.scopes i]
    split <;> rfl
  current := h.current
  output := h.output
  journal := h.journal

/-- The bodies of the same function start in stores that mirror one another. -/
theorem calling (h : ρ.Mirrors s t) (outer : ScopeId) (bindings : List (String × Value)) :
    ρ.Mirrors (s.calling outer bindings)
      (t.calling (ρ.scope outer) (bindings.map ρ.binding)) := by
  have hopened : ρ.Mirrors ((s.addScope (some outer)).2.setAll s.scopes.size bindings)
      ((t.addScope (some (ρ.scope outer))).2.setAll t.scopes.size (bindings.map ρ.binding)) := by
    rw [h.size]
    exact (h.addScope outer).setAll s.scopes.size bindings
  have hdepth := hopened.depth s.scopes.size
  rw [← h.size] at hdepth
  simp only [Store.calling, hdepth]
  -- The same depth is recorded, and each of the two moves to its own new scope.
  exact (hopened.record _).enter h.size

end Mirrors

end Rerun

end Monkey
