import Monkey.Eval
import Monkey.Proofs.Values.Sameness

/-!
# Other Numbers

Values whose objects and scopes have other numbers.

A number says nothing but which object is meant, so one may give other numbers
to all objects and scopes of a value and the value does the same. All that
prints it, tests it or files it under a key looks at contents only. The one
observation that looks at numbers is whether two values are the same, and there
it is enough that different numbers stay different.

## Main definitions

* `Slot.map`: A slot with another key and value.
* `Value.renumber`: A value with other numbers.

## Theorems

* `Value.text_renumber`, `Value.hashKey?_renumber` and the like: What does not
  look at numbers.
* `Value.same_renumber`: Whether two values are the same.
* `Slots.insert_map`, `Slots.find?_map`: The slots of a map.
-/

namespace Monkey

/-- A slot whose key and value are replaced; what it is filed under stays. -/
def Slot.map {α β : Type} (f : α → β) (slot : Slot α) : Slot β :=
  ⟨slot.hash, f slot.key, f slot.value⟩

namespace Slots

variable {α β : Type} (f : α → β)

theorem insert_map (slot : Slot α) (slots : List (Slot α)) :
    insert (slot.map f) (slots.map (Slot.map f)) = (insert slot slots).map (Slot.map f) := by
  induction slots with
  | nil => rfl
  | cons first rest ih =>
      rw [List.map_cons, insert, insert, ih]
      change (if slot.hash = first.hash then _
        else if slot.hash.before first.hash then _ else _) = _
      split
      · rfl
      · split <;> rfl

theorem find?_map (hash : HashKey) (slots : List (Slot α)) :
    find? hash (slots.map (Slot.map f)) = (find? hash slots).map (Slot.map f) := by
  unfold find?
  rw [List.find?_map]
  rfl

end Slots

namespace Value

mutual

/-- A value with other numbers of objects and of scopes. -/
def renumber (f : ObjectId → ObjectId) (g : ScopeId → ScopeId) : Value → Value
  | .nullAt id => .nullAt (f id)
  | .boolAt id b => .boolAt (f id) b
  | .int id n => .int (f id) n
  | .str id contents => .str (f id) contents
  | .array id elements => .array (f id) (renumberAll f g elements)
  | .map id slots => .map (f id) (renumberSlots f g slots)
  | .fn id params body scope => .fn (f id) params body (g scope)
  | .builtin id b => .builtin (f id) b
  | .returned id inner => .returned (f id) (inner.renumber f g)
  | .error id cause => .error (f id) cause

/-- Values with other numbers, one by one. -/
def renumberAll (f : ObjectId → ObjectId) (g : ScopeId → ScopeId) : List Value → List Value
  | [] => []
  | v :: vs => v.renumber f g :: renumberAll f g vs

/-- The slots of a map with other numbers. -/
def renumberSlots (f : ObjectId → ObjectId) (g : ScopeId → ScopeId) :
    List (Slot Value) → List (Slot Value)
  | [] => []
  | ⟨hash, key, value⟩ :: slots =>
    ⟨hash, key.renumber f g, value.renumber f g⟩ :: renumberSlots f g slots

end

section

variable (f : ObjectId → ObjectId) (g : ScopeId → ScopeId)

theorem renumberAll_eq (vs : List Value) : renumberAll f g vs = vs.map (renumber f g) := by
  induction vs with
  | nil => rfl
  | cons v vs ih => rw [renumberAll, ih, List.map_cons]

theorem renumberSlots_eq (slots : List (Slot Value)) :
    renumberSlots f g slots = slots.map (Slot.map (renumber f g)) := by
  induction slots with
  | nil => rfl
  | cons slot slots ih =>
      rw [renumberSlots, ih, List.map_cons]
      rfl

theorem renumber_array (id : ObjectId) (elements : List Value) :
    (Value.array id elements).renumber f g = .array (f id) (elements.map (renumber f g)) := by
  rw [renumber, renumberAll_eq]

theorem renumber_map (id : ObjectId) (slots : List (Slot Value)) :
    (Value.map id slots).renumber f g = .map (f id) (slots.map (Slot.map (renumber f g))) := by
  rw [renumber, renumberSlots_eq]

theorem type_renumber (v : Value) : (v.renumber f g).type = v.type := by
  cases v <;> rfl

theorem number_renumber (v : Value) : (v.renumber f g).number = f v.number := by
  cases v <;> rfl

theorem stops_renumber (v : Value) : (v.renumber f g).stops = v.stops := by
  cases v <;> rfl

theorem truthy_renumber (v : Value) : (v.renumber f g).truthy = v.truthy := by
  cases v <;> rfl

theorem hashKey?_renumber (v : Value) : (v.renumber f g).hashKey? = v.hashKey? := by
  cases v <;> rfl

theorem arrived_renumber (v : Value) :
    Eval.arrived (v.renumber f g) = (Eval.arrived v).renumber f g := by
  cases v <;> rfl

theorem codeFrom_renumber (plain : String) (v : Value) :
    (v.renumber f g).codeFrom plain = v.codeFrom plain := by
  cases v <;> rfl

mutual

theorem text_renumber : ∀ v : Value, (v.renumber f g).text = v.text
  | .nullAt _ | .boolAt _ _ | .int _ _ | .str _ _ | .fn _ _ _ _ | .builtin _ _ | .error _ _ => rfl
  | .array _ elements => by
    simp only [renumber, text, codes_renumber elements]
  | .map _ slots => by
    simp only [renumber, text, slotCodes_renumber slots]
  | .returned _ inner => by
    simp only [renumber, text, text_renumber inner]

theorem codes_renumber : ∀ vs : List Value, codes (renumberAll f g vs) = codes vs
  | [] => rfl
  | v :: vs => by
    simp only [renumberAll, codes, text_renumber v, codeFrom_renumber, codes_renumber vs]

theorem slotCodes_renumber :
    ∀ slots : List (Slot Value), slotCodes (renumberSlots f g slots) = slotCodes slots
  | [] => rfl
  | ⟨hash, key, value⟩ :: slots => by
    simp only [renumberSlots, slotCodes, text_renumber key, text_renumber value,
      codeFrom_renumber, slotCodes_renumber slots]

end

/-- Numbers are not printed. -/
theorem code_renumber (v : Value) : (v.renumber f g).code = v.code := by
  rw [code, code, text_renumber, codeFrom_renumber]

end

/-- Values are the same or not with other numbers, if different numbers stay
    different. -/
theorem same_renumber {f : ObjectId → ObjectId} (hf : Function.Injective f)
    (g : ScopeId → ScopeId) (v w : Value) :
    (v.renumber f g).same (w.renumber f g) = v.same w := by
  rw [Bool.eq_iff_iff, same_iff, same_iff, number_renumber, number_renumber]
  exact hf.eq_iff

end Value

end Monkey
