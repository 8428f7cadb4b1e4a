import Monkey.Value
import Monkey.Text.Digest

/-!
# Slots of Maps

Maps as sorted lists of slots.

A pair is filed under the type of its key object together with a 64-bit
digest of the contents. For integers and truth values the digest is the value
itself, so keys collide only if they are equal; two strings collide if their
digests do, and then they share a slot. A later pair replaces the earlier one
in its slot, key object and all.

The slots are kept in the order of their keys, types first and then digests
as unsigned words. Negative integers therefore come behind all others. Since
insertion keeps the order, a map does not remember the order in which its
pairs arrived.

## Main definitions

* `Value.hashKey?`: What a value is filed under, if it can be a key.
* `HashKey.before`: The order of keys.
* `Slots.insert`: A map with one more pair.
* `Slots.find?`: The slot of a key.

## Theorems

* `Value.stops_of_hashKey?`: What can be a key does not stop.
* `Slots.mem_insert`: The slots of a map with one more pair.
* `Slots.find?_insert_self`: A pair is found with the key it was put in with.
* `Slots.find?_insert_of_ne`: The other pairs are left alone.
-/

namespace Monkey

namespace Value

/-- What a value is filed under. Only integers, truth values and strings can
    be keys. -/
def hashKey? : Value → Option HashKey
  | int _ n => some ⟨.integer, n.toUInt64⟩
  | boolAt _ b => some ⟨.boolean, if b then 1 else 0⟩
  | str _ contents => some ⟨.string, Text.digest contents⟩
  | _ => none

/-- What can be a key does not stop. -/
theorem stops_of_hashKey? {k : Value} {hash : HashKey} (h : k.hashKey? = some hash) :
    k.stops = false := by
  cases k with
  | returned _ _ | error _ _ => cases h
  | _ => rfl

end Value

namespace HashKey

/-- Whether a key comes before another one: by type, then by digest. -/
def before (a b : HashKey) : Bool :=
  a.type.rank < b.type.rank || (a.type.rank == b.type.rank && a.digest < b.digest)

end HashKey

namespace Slots

variable {α : Type}

/-- The slots with one more pair, which takes the place of an earlier one
    that is filed under the same key. -/
def insert (slot : Slot α) : List (Slot α) → List (Slot α)
  | [] => [slot]
  | s :: ss =>
    -- The earlier pair goes with its key, which need not be the same object.
    if slot.hash = s.hash then slot :: ss
    else if slot.hash.before s.hash then slot :: s :: ss
    else s :: insert slot ss

/-- The slot of a key, if there is one. -/
def find? (hash : HashKey) (slots : List (Slot α)) : Option (Slot α) :=
  List.find? (fun s => s.hash == hash) slots

/-- A slot of a map with one more pair is that of the pair or was there. -/
theorem mem_insert {new slot : Slot α} {slots : List (Slot α)} (h : slot ∈ insert new slots) :
    slot = new ∨ slot ∈ slots := by
  induction slots with
  | nil => exact .inl (List.mem_singleton.mp h)
  | cons first rest ih =>
      unfold insert at h
      split at h
      · rcases List.mem_cons.mp h with heq | hmem
        · exact .inl heq
        · exact .inr (List.mem_cons_of_mem _ hmem)
      · split at h
        · exact List.mem_cons.mp h
        · rcases List.mem_cons.mp h with heq | hmem
          · exact .inr (heq ▸ List.mem_cons_self)
          · exact (ih hmem).imp_right (List.mem_cons_of_mem _)

theorem find?_insert_self (slot : Slot α) (slots : List (Slot α)) :
    find? slot.hash (insert slot slots) = some slot := by
  induction slots with
  | nil => exact List.find?_cons_of_pos (beq_self_eq_true _)
  | cons first rest ih =>
      unfold insert
      split
      · exact List.find?_cons_of_pos (beq_self_eq_true _)
      · rename_i hne
        split
        · exact List.find?_cons_of_pos (beq_self_eq_true _)
        · exact (List.find?_cons_of_neg (by simpa using Ne.symm hne)).trans ih

/-- A pair leaves those alone that are filed under other keys. -/
theorem find?_insert_of_ne {slot : Slot α} {hash : HashKey} (h : slot.hash ≠ hash)
    (slots : List (Slot α)) : find? hash (insert slot slots) = find? hash slots := by
  unfold find?
  induction slots with
  | nil => exact List.find?_cons_of_neg (by simpa using h)
  | cons first rest ih =>
      unfold insert
      split
      · rename_i heq
        rw [List.find?_cons_of_neg (by simpa using h),
          List.find?_cons_of_neg (by simpa using heq ▸ h)]
      · split
        · exact List.find?_cons_of_neg (by simpa using h)
        · rw [List.find?_cons, List.find?_cons, ih]

end Slots

end Monkey
