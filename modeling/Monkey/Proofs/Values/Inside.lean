import Monkey.Value

/-!
# Values Inside of Values

What arrays, maps and wrappings hold.

A value holds others, which may hold others in turn, and `Value.Inside` says
that a value is found in another one at whatever depth. A function holds none,
although its scope binds names to values: those belong to the store.

A value is a tree, so no array is an element of itself, and no map is one of its
own keys or values.

## Main definitions

* `Value.Inside`: A value that is, or is held by, another one.

## Theorems

* `Value.Inside.trans`: What is inside of something inside is inside.
* `Value.ne_array`, `Value.key_ne_map`, `Value.value_ne_map`: Nothing holds
  itself.
-/

namespace Monkey

namespace Value

/-- A value that another one is or holds, at any depth. -/
inductive Inside : Value → Value → Prop where
  | refl (v : Value) : Inside v v
  | element {v e : Value} {id : ObjectId} {es : List Value} (he : e ∈ es) (h : v.Inside e) :
    Inside v (.array id es)
  | key {v : Value} {id : ObjectId} {slots : List (Slot Value)} {slot : Slot Value}
    (hslot : slot ∈ slots) (h : v.Inside slot.key) : Inside v (.map id slots)
  | value {v : Value} {id : ObjectId} {slots : List (Slot Value)} {slot : Slot Value}
    (hslot : slot ∈ slots) (h : v.Inside slot.value) : Inside v (.map id slots)
  | inner {v w : Value} {id : ObjectId} (h : v.Inside w) : Inside v (.returned id w)

theorem Inside.trans {u v w : Value} (h : u.Inside v) (h' : v.Inside w) : u.Inside w := by
  induction h' with
  | refl => exact h
  | element he _ ih => exact .element he ih
  | key hslot _ ih => exact .key hslot ih
  | value hslot _ ih => exact .value hslot ih
  | inner _ ih => exact .inner ih

/-- An element is not the array itself. -/
theorem ne_array {id : ObjectId} {elements : List Value} {e : Value} (he : e ∈ elements) :
    e ≠ .array id elements := by
  rintro rfl
  have hsize := List.sizeOf_lt_of_mem he
  simp only [array.sizeOf_spec] at hsize
  omega

/-- Neither is a key the map that it is in. -/
theorem key_ne_map {id : ObjectId} {slots : List (Slot Value)} {slot : Slot Value}
    (hslot : slot ∈ slots) : slot.key ≠ .map id slots := by
  intro heq
  have hsize := List.sizeOf_lt_of_mem hslot
  have hkey := congrArg sizeOf heq
  rcases slot with ⟨hash, key, value⟩
  simp only [Slot.mk.sizeOf_spec, map.sizeOf_spec] at hsize hkey
  omega

/-- Neither is what a key leads to. -/
theorem value_ne_map {id : ObjectId} {slots : List (Slot Value)} {slot : Slot Value}
    (hslot : slot ∈ slots) : slot.value ≠ .map id slots := by
  intro heq
  have hsize := List.sizeOf_lt_of_mem hslot
  have hvalue := congrArg sizeOf heq
  rcases slot with ⟨hash, key, value⟩
  simp only [Slot.mk.sizeOf_spec, map.sizeOf_spec] at hsize hvalue
  omega

end Value

end Monkey
