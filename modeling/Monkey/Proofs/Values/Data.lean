import Monkey.Proofs.Values.Inside
import Monkey.Proofs.Values.Numbers
import Monkey.Proofs.Values.Order

/-!
# Data

Values without functions, and what makes two of them alike.

Data are the values that can be written down: integers, strings, truth values
and the arrays and maps of such. A map is built by putting in pairs, each one
under what its key object is filed under, and that leaves its slots sorted and
filed under their own keys. What can be filed at all is no array and no map,
so the keys of a map are data without a condition that says so, and the
induction over data (`Value.Data.induct`) covers them as well.

Two values are alike if they differ in the numbers of their objects only.
That is said with a function that takes the numbers out. Whatever does not
look at identities is the same for a value with and without them.

## Main definitions

* `Slots.Built`: The slots of a map that pairs were put into.
* `Value.Data`: What can be written down.
* `Value.HasSmallest`: The smallest integer occurs in a value.
* `Value.unnumbered`: A value without the numbers of its objects.

## Theorems

* `Slots.Built.sorted`, `Slots.Built.own`: What is known of the slots of a map.
* `Value.Data.induct`: Induction over data.
* `Value.hasSmallest_array`, `Value.hasSmallest_map`: Where it occurs.
* `Value.unnumbered_eq`: To take the numbers out is to renumber.
* `Value.code_unnumbered`: Numbers are not printed.
-/

namespace Monkey

/-- The slots of a map that pairs were put into, each under what its key is
    filed under. -/
inductive Slots.Built : List (Slot Value) → Prop where
  | nil : Built []
  | insert {slots : List (Slot Value)} {key : Value} {hash : HashKey} (h : Built slots)
    (hkey : key.hashKey? = some hash) (value : Value) :
    Built (Slots.insert ⟨hash, key, value⟩ slots)

namespace Slots.Built

variable {slots : List (Slot Value)}

theorem sorted (h : Built slots) : Slots.Sorted slots := by
  induction h with
  | nil => exact List.Pairwise.nil
  | insert _ _ _ ih => exact insert_sorted ih _

/-- Each slot is filed under its own key. -/
theorem own (h : Built slots) : ∀ slot ∈ slots, slot.key.hashKey? = some slot.hash := by
  induction h with
  | nil => exact fun slot hslot => absurd hslot List.not_mem_nil
  | insert _ hkey _ ih =>
      intro slot hslot
      rcases mem_insert hslot with rfl | hslot
      · exact hkey
      · exact ih slot hslot

end Slots.Built

namespace Value

/-- What can be written down. -/
inductive Data : Value → Prop where
  | bool (id : ObjectId) (b : Bool) : Data (.boolAt id b)
  | int (id : ObjectId) (n : Int64) : Data (.int id n)
  | str (id : ObjectId) (contents : String) : Data (.str id contents)
  | array (id : ObjectId) {elements : List Value} (h : ∀ v ∈ elements, v.Data) :
    Data (.array id elements)
  | map (id : ObjectId) {slots : List (Slot Value)} (hbuilt : Slots.Built slots)
    (h : ∀ slot ∈ slots, slot.value.Data) : Data (.map id slots)

/-- What can be filed is an integer, a truth value or a string. -/
theorem Data.of_hashKey? {key : Value} {hash : HashKey} (h : key.hashKey? = some hash) :
    key.Data := by
  cases key with
  | boolAt id b => exact .bool id b
  | int id n => exact .int id n
  | str id contents => exact .str id contents
  | _ => cases h

/-- Induction over data, the keys of maps included. -/
theorem Data.induct {P : (v : Value) → v.Data → Prop} 
    (bool : ∀ id b, P (.boolAt id b) (.bool id b))
    (int : ∀ id n, P (.int id n) (.int id n))
    (str : ∀ id contents, P (.str id contents) (.str id contents))
    (array : ∀ id elements (h : ∀ v ∈ elements, v.Data), (∀ v (hv : v ∈ elements), P v (h v hv)) →
      P (.array id elements) (.array id h))
    (map : ∀ id slots (hbuilt : Slots.Built slots) (hkeys : ∀ slot ∈ slots, slot.key.Data)
      (h : ∀ slot ∈ slots, slot.value.Data),
      (∀ slot (hslot : slot ∈ slots), P slot.key (hkeys slot hslot)) →
      (∀ slot (hslot : slot ∈ slots), P slot.value (h slot hslot)) →
        P (.map id slots) (.map id hbuilt h))
    {v : Value} (h : v.Data) : P v h := by
  induction h with
  | bool id b => exact bool id b
  | int id n => exact int id n
  | str id contents => exact str id contents
  | array id h ih => exact array id _ h ih
  | @map id slots hbuilt h ih =>
      have hkeys : ∀ slot ∈ slots, slot.key.Data := fun slot hslot =>
        .of_hashKey? (hbuilt.own slot hslot)
      refine map id slots hbuilt hkeys h (fun slot hslot => ?_) ih
      -- A key is no array and no map, so it needs no hypothesis about its parts.
      have hkey := hbuilt.own slot hslot
      generalize hkeys slot hslot = hdata
      generalize slot.key = key at hkey hdata
      cases hdata with
      | bool id b => exact bool id b
      | int id n => exact int id n
      | str id contents => exact str id contents
      | array id h => cases hkey
      | map id hbuilt h => cases hkey

/-- The smallest integer occurs in a value. -/
def HasSmallest (v : Value) : Prop :=
  ∃ id, (int id Int64.minValue).Inside v

theorem hasSmallest_int {id : ObjectId} {n : Int64} :
    HasSmallest (.int id n) ↔ n = Int64.minValue := by
  constructor
  · rintro ⟨id', h⟩
    cases h
    rfl
  · rintro rfl
    exact ⟨id, .refl _⟩

theorem not_hasSmallest_bool {id : ObjectId} {b : Bool} : ¬HasSmallest (.boolAt id b) := by
  rintro ⟨id', h⟩
  cases h

theorem not_hasSmallest_str {id : ObjectId} {contents : String} :
    ¬HasSmallest (.str id contents) := by
  rintro ⟨id', h⟩
  cases h

theorem hasSmallest_array {id : ObjectId} {elements : List Value} :
    HasSmallest (.array id elements) ↔ ∃ v ∈ elements, v.HasSmallest := by
  constructor
  · rintro ⟨id', h⟩
    cases h with
    | element hv h => exact ⟨_, hv, id', h⟩
  · rintro ⟨v, hv, id', h⟩
    exact ⟨id', .element hv h⟩

theorem hasSmallest_map {id : ObjectId} {slots : List (Slot Value)} :
    HasSmallest (.map id slots) ↔
      ∃ slot ∈ slots, slot.key.HasSmallest ∨ slot.value.HasSmallest := by
  constructor
  · rintro ⟨id', h⟩
    cases h with
    | key hslot h => exact ⟨_, hslot, .inl ⟨id', h⟩⟩
    | value hslot h => exact ⟨_, hslot, .inr ⟨id', h⟩⟩
  · rintro ⟨slot, hslot, ⟨id', h⟩ | ⟨id', h⟩⟩
    · exact ⟨id', .key hslot h⟩
    · exact ⟨id', .value hslot h⟩

mutual

/-- A value without the numbers of its objects. -/
def unnumbered : Value → Value
  | .nullAt _ => .nullAt 0
  | .boolAt _ b => .boolAt 0 b
  | .int _ n => .int 0 n
  | .str _ contents => .str 0 contents
  | .array _ elements => .array 0 (allUnnumbered elements)
  | .map _ slots => .map 0 (slotsUnnumbered slots)
  | .fn _ params body scope => .fn 0 params body scope
  | .builtin _ b => .builtin 0 b
  | .returned _ inner => .returned 0 inner.unnumbered
  | .error _ cause => .error 0 cause

/-- Values without the numbers of their objects, one by one. -/
def allUnnumbered : List Value → List Value
  | [] => []
  | v :: vs => v.unnumbered :: allUnnumbered vs

/-- The slots of a map without the numbers of their objects. -/
def slotsUnnumbered : List (Slot Value) → List (Slot Value)
  | [] => []
  | ⟨hash, key, value⟩ :: slots =>
    ⟨hash, key.unnumbered, value.unnumbered⟩ :: slotsUnnumbered slots

end

-- To take the numbers out is to put one number in for all of them.

mutual

theorem unnumbered_eq : ∀ v : Value, v.unnumbered = v.renumber (fun _ => 0) id
  | .nullAt _ | .boolAt _ _ | .int _ _ | .str _ _ | .fn _ _ _ _ | .builtin _ _ | .error _ _ => rfl
  | .array _ elements => by rw [unnumbered, renumber, allUnnumbered_eq elements]
  | .map _ slots => by rw [unnumbered, renumber, slotsUnnumbered_eq slots]
  | .returned _ inner => by rw [unnumbered, renumber, unnumbered_eq inner]

theorem allUnnumbered_eq :
    ∀ vs : List Value, allUnnumbered vs = renumberAll (fun _ => 0) id vs
  | [] => rfl
  | v :: vs => by rw [allUnnumbered, renumberAll, unnumbered_eq v, allUnnumbered_eq vs]

theorem slotsUnnumbered_eq :
    ∀ slots : List (Slot Value), slotsUnnumbered slots = renumberSlots (fun _ => 0) id slots
  | [] => rfl
  | ⟨hash, key, value⟩ :: slots => by
    rw [slotsUnnumbered, renumberSlots, unnumbered_eq key, unnumbered_eq value,
      slotsUnnumbered_eq slots]

end

theorem slotsUnnumbered_append (slots slots' : List (Slot Value)) :
    slotsUnnumbered (slots ++ slots') = slotsUnnumbered slots ++ slotsUnnumbered slots' := by
  simp only [slotsUnnumbered_eq, renumberSlots_eq, List.map_append]

theorem stops_unnumbered (v : Value) : v.unnumbered.stops = v.stops := by
  rw [unnumbered_eq, stops_renumber]

theorem hashKey?_unnumbered (v : Value) : v.unnumbered.hashKey? = v.hashKey? := by
  rw [unnumbered_eq, hashKey?_renumber]

/-- Numbers are not printed. -/
theorem code_unnumbered (v : Value) : v.unnumbered.code = v.code := by
  rw [unnumbered_eq, code_renumber]

end Value

end Monkey
