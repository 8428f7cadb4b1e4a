import Monkey.Value.Slots

/-!
# The Order of Slots

Maps are sorted, so they are rebuilt in order.

Keys are ordered by their types and then by their digests, and the order is a
strict and total one. A map that is built by putting in pairs therefore has
its slots sorted, and no two of them under one key, whatever the order in
which the pairs came. The converse is what makes it possible to write a map
out and read it again: pairs that are put in by the order of their keys are
lined up one behind the other, since each of them goes to the end.

## Main definitions

* `Slots.Sorted`: The slots are in the order of their keys.

## Theorems

* `HashKey.before_trans`, `HashKey.before_total`: The order of keys.
* `Slots.insert_sorted`: Slots stay sorted.
* `Slots.insert_last`: A pair behind all others.
-/

namespace Monkey

theorem ValueType.eq_of_rank_eq {a b : ValueType} (h : a.rank = b.rank) : a = b := by
  cases a <;> cases b <;> first | rfl | exact absurd h (by decide)

namespace HashKey

variable {a b c : HashKey}

theorem before_iff : a.before b = true ↔ a.type.rank < b.type.rank ∨
    a.type.rank = b.type.rank ∧ a.digest.toNat < b.digest.toNat := by
  simp only [before, Bool.or_eq_true, Bool.and_eq_true, decide_eq_true_eq, beq_iff_eq,
    UInt64.lt_iff_toNat_lt]

theorem not_before_self : a.before a ≠ true := by
  intro h
  have hlt := before_iff.mp h
  omega

theorem before_trans (h : a.before b = true) (h' : b.before c = true) : a.before c = true := by
  have hlt := before_iff.mp h
  have hlt' := before_iff.mp h'
  exact before_iff.mpr (by omega)

theorem before_asymm (h : a.before b = true) : b.before a ≠ true :=
  fun h' => not_before_self (before_trans h h')

/-- Of two different keys one comes before the other. -/
theorem before_total (hne : a ≠ b) (h : a.before b ≠ true) : b.before a = true := by
  rw [Ne, before_iff] at h
  refine before_iff.mpr ?_
  by_cases hrank : a.type.rank = b.type.rank
  · -- Keys of one type differ in their digests.
    have hdigest : a.digest.toNat ≠ b.digest.toNat := fun heq =>
      hne (by
        cases a
        cases b
        exact congr (congrArg mk (ValueType.eq_of_rank_eq hrank)) (UInt64.toNat_inj.mp heq))
    omega
  · omega

end HashKey

namespace Slots

variable {α : Type}

/-- The slots are in the order of their keys, and there is one at most for
    each key. -/
def Sorted (slots : List (Slot α)) : Prop :=
  slots.Pairwise fun s t => s.hash.before t.hash = true

/-- A map with one more pair is sorted again. -/
theorem insert_sorted {slots : List (Slot α)} (h : Sorted slots) (slot : Slot α) :
    Sorted (insert slot slots) := by
  induction slots with
  | nil => exact List.pairwise_singleton _ slot
  | cons first rest ih =>
      rcases List.pairwise_cons.mp h with ⟨hfirst, hrest⟩
      unfold insert
      by_cases hsame : slot.hash = first.hash
      · -- The new pair stands where the earlier one of its key stood.
        rw [if_pos hsame]
        refine List.pairwise_cons.mpr ⟨fun s hs => ?_, hrest⟩
        rw [hsame]
        exact hfirst s hs
      · rw [if_neg hsame]
        by_cases hbefore : slot.hash.before first.hash = true
        · rw [if_pos hbefore]
          refine List.pairwise_cons.mpr ⟨fun s hs => ?_, h⟩
          rcases List.mem_cons.mp hs with rfl | hs
          · exact hbefore
          · exact HashKey.before_trans hbefore (hfirst s hs)
        · rw [if_neg hbefore]
          refine List.pairwise_cons.mpr ⟨fun s hs => ?_, ih hrest⟩
          rcases mem_insert hs with rfl | hs
          · exact HashKey.before_total hsame hbefore
          · exact hfirst s hs

/-- A pair whose key comes behind all others goes to the end. -/
theorem insert_last {slots : List (Slot α)} {slot : Slot α}
    (h : ∀ s ∈ slots, s.hash.before slot.hash = true) : insert slot slots = slots ++ [slot] := by
  induction slots with
  | nil => rfl
  | cons first rest ih =>
      rcases List.forall_mem_cons.mp h with ⟨hfirst, hrest⟩
      have hne : slot.hash ≠ first.hash := fun heq => by
        rw [heq] at hfirst
        exact HashKey.not_before_self hfirst
      have hbefore : slot.hash.before first.hash ≠ true := HashKey.before_asymm hfirst
      rw [insert, if_neg hne, if_neg hbefore, ih hrest, List.cons_append]

end Slots

end Monkey
