import Monkey.Value

/-!
# One and the Same

What it takes for two values to be the same, and to be equal.

The language compares objects by their numbers. So a value is the same as
itself and as whatever has its number. Whether the latter is the value itself is
not a matter of the two values alone: it depends on how numbers are given out.

The operator `==` makes an exception of integers, which it compares by value.

## Main definitions

* `Value.equals`: What the operator `==` asks about two values.

## Theorems

* `Value.same_iff`: What has one number is the same.
* `Value.same_refl`, `Value.same_comm`: Any two values.
* `Value.equals_refl`, `Value.equals_comm`: Any two values, for the operator.
-/

namespace Monkey

namespace Value

/-- One and the same is what has one number. -/
theorem same_iff {v w : Value} : v.same w = true ↔ v.number = w.number :=
  beq_iff_eq

/-- Another null would not be the shared one. -/
example : (nullAt 7).same null = false := rfl

theorem same_refl (v : Value) : v.same v = true :=
  same_iff.mpr rfl

theorem same_comm (v w : Value) : v.same w = w.same v :=
  BEq.comm

/-- What the operator `==` asks: integers are compared by value, everything else
    by identity. -/
def equals : Value → Value → Bool
  | .int _ m, .int _ n => m == n
  | v, w => v.same w

theorem equals_of_not_int {v w : Value} (h : ¬∃ i m j n, v = .int i m ∧ w = .int j n) :
    v.equals w = v.same w := by
  unfold equals
  split
  · rename_i i m j n
    exact absurd ⟨i, m, j, n, rfl, rfl⟩ h
  · rfl

theorem equals_refl (v : Value) : v.equals v = true := by
  by_cases h : ∃ i m j n, v = .int i m ∧ v = .int j n
  · rcases h with ⟨i, m, j, n, rfl, -⟩
    exact beq_iff_eq.mpr rfl
  · rw [equals_of_not_int h]
    exact same_refl v

theorem equals_comm (v w : Value) : v.equals w = w.equals v := by
  by_cases h : ∃ i m j n, v = .int i m ∧ w = .int j n
  · rcases h with ⟨i, m, j, n, rfl, rfl⟩
    exact BEq.comm
  · rw [equals_of_not_int h, equals_of_not_int, same_comm]
    rintro ⟨i, m, j, n, rfl, rfl⟩
    exact h ⟨j, n, i, m, rfl, rfl⟩

end Value

end Monkey
