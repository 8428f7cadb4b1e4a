import Monkey.Proofs.Evaluation.Making
import Monkey.Proofs.Evaluation.Nesting
import Monkey.Proofs.Evaluation.Objects

/-!
# Identity

Which values are one and the same, and what the operator `==` makes of it.

That numbers are used once settles what identity means: what has one number is
one value. What a part makes has a number of its own, so it is none of the
values that there were, and no part makes a null or a truth value, so that there
are no others of them than the shared ones. Everything else that comes to a
value hands on one that was there: names, arguments, wrappings, arrays and maps
keep the very object they are given, and yield it again. This is read off
courses, one way of handing on at a time.

## Main definitions

* `Coherent`, `HandsOn`, `Equality`: What holds of identity in a session.

## Theorems

* `session_identity`: Identity in a session.
-/

namespace Monkey

/-- The operators for equality in the programs of a session. -/
structure Equality (programs : List Point) : Prop where
  /-- It has a truth value for any two values, and does nothing else. -/
  equal : ∀ v w s, Eval.binary .equal v w s = some (.bool (v.equals w), s)
  /-- Its negation. -/
  notEqual : ∀ v w s, Eval.binary .notEqual v w s = some (.bool !(v.equals w), s)
  /-- It asks for integers of one value, or for what is one and the same. -/
  means : ∀ (p q : Point) (t t' : Store) (v w : Value), p.Of programs → q.Of programs →
    p.Shows t v → q.Shows t' w →
      (v.equals w = true ↔ (∃ i j n, v = .int i n ∧ w = .int j n) ∨ v.same w = true)
  refl : ∀ v : Value, v.equals v = true
  symm : ∀ v w : Value, v.equals w = true → w.equals v = true
  trans : ∀ (p q r : Point) (t t' t'' : Store) (v w x : Value), p.Of programs → q.Of programs →
    r.Of programs → p.Shows t v → q.Shows t' w → r.Shows t'' x →
      v.equals w = true → w.equals x = true → v.equals x = true
  /-- Truth values are compared by value. -/
  truth : ∀ (p q : Point) (t t' : Store) (v w : Value), p.Of programs → q.Of programs →
    p.Shows t v → q.Shows t' w → v.type = .boolean → w.type = .boolean →
      (v.equals w = true ↔ v.truthy = w.truthy)
  /-- Nothing but null is equal to null. -/
  null : ∀ (p q : Point) (t t' : Store) (v w : Value), p.Of programs → q.Of programs →
    p.Shows t v → q.Shows t' w → v.type = .null → (v.equals w = true ↔ w.type = .null)

theorem Eval.binary_equal (v w : Value) (s : Store) :
    binary .equal v w s = some (.bool (v.equals w), s) := by
  unfold binary
  split
  · rfl
  · rfl
  · rename_i hints hstrs
    rw [Value.equals_of_not_int]
    · rfl
    · rintro ⟨i, m, j, n, rfl, rfl⟩
      exact hints i m j n rfl rfl

theorem Eval.binary_notEqual (v w : Value) (s : Store) :
    binary .notEqual v w s = some (.bool !(v.equals w), s) := by
  unfold binary
  split
  · rfl
  · rfl
  · rename_i hints hstrs
    rw [Value.equals_of_not_int]
    · rfl
    · rintro ⟨i, m, j, n, rfl, rfl⟩
      exact hints i m j n rfl rfl

namespace Point.Session

open Course

variable {programs : List Point}

theorem equality (hsession : Session programs) : Equality programs where
  equal := Eval.binary_equal
  notEqual := Eval.binary_notEqual
  means _ _ _ _ _ _ hp hq hv hw := hsession.equals_iff hp hq hv hw
  refl := Value.equals_refl
  symm v w h := Value.equals_comm v w ▸ h
  trans _ _ _ _ _ _ _ _ _ hp hq hr hv hw hx h h' := hsession.equals_trans hp hq hr hv hw hx h h'
  truth p q t t' v w hp hq hv hw hbool hbool' := by
    rw [hsession.equals_iff_eq hp hq hv hw (hbool ▸ nofun)]
    refine ⟨congrArg Value.truthy, fun h => ?_⟩
    rw [hsession.eq_bool hp hv hbool, hsession.eq_bool hq hw hbool', h]
  null p q t t' v w hp hq hv hw hnull := by
    rw [hsession.equals_iff_eq hp hq hv hw (hnull ▸ nofun)]
    refine ⟨fun h => h ▸ hnull, fun h => ?_⟩
    rw [hsession.eq_null hp hv hnull, hsession.eq_null hq hw h]

end Point.Session

end Monkey
