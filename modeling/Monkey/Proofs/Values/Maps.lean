import Mathlib.Data.List.Induction
import Mathlib.Data.List.Nodup
import Monkey.Proofs.Values.Literal

/-!
# Maps of Literals

What is in a map, and what is found in it.

A map literal puts in its pairs from left to right. A pair takes the place of
an earlier one with the same hash, key object and all, so in the end there is
one slot for each hash, and in it is the last pair with that hash
(`Slots.mem_putAll`). That is said of the pairs as they were found; where they
stand in the map depends on their hashes, and no order is mentioned here.

Two integers have the same hash if and only if they are equal, whatever their
signs, and so do two truth values. Values of different types have different
hashes. Only strings can share a slot without being equal.

A key that has no hash ends the literal, and it does so before its value is
looked at. The value may do anything then, or never come to an end
(`Expr.eval_map_refused`).

## Main definitions

* `Slots.putAll`: A map with more pairs.
* `Slots.Last`: The last pair with its hash.
* `Expr.Finds`: What the pairs of a literal come to.

## Theorems

* `Slots.last_append`: The last pairs with one pair more.
* `Slots.find?_putAll`, `Slots.mem_putAll`: A map holds the last pairs.
* `Expr.Finds.evalPairs_append`: The pairs of a literal are put in.
* `Expr.eval_map_refused`: A key that has no hash.
* `Value.hashKey?_eq_int`, `Value.hashKey?_eq_bool`, `Value.type_of_hashKey?`:
  Which values share a slot.
* `map_last_wins`: What is in the map of a literal and what is found in it.
-/

namespace Monkey

namespace Slots

variable {α : Type}

/-- A map with more pairs, which are put in one by one. -/
def putAll (slots found : List (Slot α)) : List (Slot α) :=
  found.foldl (fun slots slot => insert slot slots) slots

/-- A pair is found with a hash, and none is found with that hash behind it. -/
def Last (found : List (Slot α)) (slot : Slot α) : Prop :=
  ∃ earlier later, found = earlier ++ slot :: later ∧ ∀ t ∈ later, t.hash ≠ slot.hash

variable {found : List (Slot α)} {slot : Slot α}

theorem Last.mem (h : Last found slot) : slot ∈ found := by
  rcases h with ⟨earlier, later, rfl, -⟩
  exact List.mem_append_right _ List.mem_cons_self

theorem putAll_append (slots found : List (Slot α)) (slot : Slot α) :
    putAll slots (found ++ [slot]) = insert slot (putAll slots found) :=
  List.foldl_append

/-- One pair more is the last one with its hash, and those with another hash
    are what they were. -/
theorem last_append {new : Slot α} :
    Last (found ++ [new]) slot ↔ slot = new ∨ Last found slot ∧ new.hash ≠ slot.hash := by
  constructor
  · rintro ⟨earlier, later, heq, hlater⟩
    rcases List.eq_nil_or_concat' later with rfl | ⟨front, last, rfl⟩
    · exact .inl (List.append_inj_right' heq rfl |> List.singleton_inj.mp).symm
    · -- What comes behind the pair is the new one at the latest.
      have hsplit : found ++ [new] = (earlier ++ slot :: front) ++ [last] := by
        rw [heq, List.append_assoc, List.cons_append]
      rcases List.append_inj' hsplit rfl with ⟨hfound, hnew⟩
      obtain rfl := List.singleton_inj.mp hnew
      refine .inr ⟨⟨earlier, front, hfound, fun t ht => ?_⟩, ?_⟩
      · exact hlater t (List.mem_append_left _ ht)
      · exact hlater new (List.mem_append_right _ List.mem_cons_self)
  · rintro (rfl | ⟨⟨earlier, later, rfl, hlater⟩, hnew⟩)
    · exact ⟨found, [], rfl, fun t ht => absurd ht List.not_mem_nil⟩
    · refine ⟨earlier, later ++ [new], by rw [List.append_assoc, List.cons_append], fun t ht => ?_⟩
      rcases List.mem_append.mp ht with ht | ht
      · exact hlater t ht
      · rw [List.mem_singleton.mp ht]
        exact hnew

/-- What is found in a map under a hash is the last pair with it. -/
theorem find?_putAll (found : List (Slot α)) (hash : HashKey) (slot : Slot α) :
    find? hash (putAll [] found) = some slot ↔ slot.hash = hash ∧ Last found slot := by
  induction found using List.reverseRecOn with
  | nil =>
      exact ⟨fun h => absurd h (Option.some_ne_none slot).symm,
        fun h => absurd h.2.mem List.not_mem_nil⟩
  | append_singleton found new ih =>
      rw [putAll_append, last_append]
      by_cases hnew : new.hash = hash
      · -- The new pair has taken the place of all others with the hash.
        rw [← hnew, find?_insert_self, Option.some_inj]
        refine ⟨fun heq => heq ▸ ⟨rfl, .inl rfl⟩, fun h => ?_⟩
        rcases h.2 with heq | ⟨-, hne⟩
        · exact heq.symm
        · exact absurd h.1.symm hne
      · rw [find?_insert_of_ne hnew, ih]
        refine and_congr_right fun hslot => ⟨fun h => .inr ⟨h, hslot ▸ hnew⟩, fun h => ?_⟩
        rcases h with rfl | h
        · exact absurd hslot hnew
        · exact h.1

theorem putAll_sorted (found : List (Slot α)) : Sorted (putAll [] found) := by
  induction found using List.reverseRecOn with
  | nil => exact List.Pairwise.nil
  | append_singleton found new ih =>
      rw [putAll_append]
      exact insert_sorted ih new

/-- No two slots of a map have the same hash. -/
theorem Sorted.nodup {slots : List (Slot α)} (h : Sorted slots) : (slots.map Slot.hash).Nodup := by
  refine List.pairwise_map.mpr (h.imp fun {a b} hbefore heq => ?_)
  rw [heq] at hbefore
  exact HashKey.not_before_self hbefore

/-- A slot is found under its own hash. -/
theorem Sorted.mem_iff {slots : List (Slot α)} (h : Sorted slots) :
    slot ∈ slots ↔ find? slot.hash slots = some slot := by
  refine ⟨fun hslot => ?_, fun hfind => List.mem_of_find?_eq_some hfind⟩
  cases hfind : find? slot.hash slots with
  | none =>
      have hnone := List.find?_eq_none.mp hfind slot hslot
      exact absurd (beq_self_eq_true slot.hash) hnone
  | some other =>
      have hfound : (other.hash == slot.hash) = true :=
        List.find?_some (p := fun s : Slot α => s.hash == slot.hash) hfind
      have hhash : other.hash = slot.hash := beq_iff_eq.mp hfound
      have hother : other ∈ slots := List.mem_of_find?_eq_some hfind
      rw [List.inj_on_of_nodup_map h.nodup hother hslot hhash]

/-- A map holds the last pairs and no others. -/
theorem mem_putAll : slot ∈ putAll [] found ↔ Last found slot := by
  rw [(putAll_sorted found).mem_iff, find?_putAll]
  exact and_iff_right rfl

/-- For every pair that is found there is a last one with its hash. -/
theorem exists_last (h : slot ∈ found) : ∃ last, Last found last ∧ last.hash = slot.hash := by
  induction found using List.reverseRecOn with
  | nil => exact absurd h List.not_mem_nil
  | append_singleton found new ih =>
      by_cases hnew : new.hash = slot.hash
      · exact ⟨new, last_append.mpr (.inl rfl), hnew⟩
      · rcases List.mem_append.mp h with h | h
        · rcases ih h with ⟨last, hlast, heq⟩
          exact ⟨last, last_append.mpr (.inr ⟨hlast, heq ▸ hnew⟩), heq⟩
        · rw [List.mem_singleton.mp h] at hnew
          exact absurd rfl hnew

end Slots

namespace Value

variable {k : Value} {hash : HashKey}

/-- A hash tells the type of what it is the hash of. -/
theorem type_of_hashKey? (h : k.hashKey? = some hash) : hash.type = k.type := by
  cases k with
  | int id n => rw [← Option.some.inj h]; rfl
  | boolAt id b => rw [← Option.some.inj h]; rfl
  | str id contents => rw [← Option.some.inj h]; rfl
  | _ => cases h

/-- Values that share a slot are of one type. -/
theorem type_eq_of_hashKey?_eq {k' : Value} (h : k.hashKey? = some hash)
    (h' : k'.hashKey? = some hash) : k.type = k'.type :=
  (type_of_hashKey? h).symm.trans (type_of_hashKey? h')

/-- What shares a slot with an integer is the same integer. -/
theorem hashKey?_eq_int {id : ObjectId} {n : Int64} :
    k.hashKey? = (Value.int id n).hashKey? ↔ ∃ j, k = .int j n := by
  refine ⟨fun h => ?_, fun ⟨j, hk⟩ => hk ▸ rfl⟩
  have hint : (Value.int id n).hashKey? = some ⟨.integer, n.toUInt64⟩ := rfl
  have htype : k.type = .integer := type_eq_of_hashKey?_eq (h.trans hint) hint
  cases k with
  | int j m =>
      have hdigest : m.toUInt64 = n.toUInt64 := congrArg HashKey.digest (Option.some.inj h)
      have hsame : m = n := by
        rw [← Int64.toInt64_toUInt64 m, hdigest, Int64.toInt64_toUInt64]
      exact ⟨j, hsame ▸ rfl⟩
  | _ => cases htype

/-- What shares a slot with a truth value is the same truth value. -/
theorem hashKey?_eq_bool {id : ObjectId} {b : Bool} :
    k.hashKey? = (Value.boolAt id b).hashKey? ↔ ∃ j, k = .boolAt j b := by
  refine ⟨fun h => ?_, fun ⟨j, hk⟩ => hk ▸ rfl⟩
  have hbool : (Value.boolAt id b).hashKey? = some ⟨.boolean, if b then 1 else 0⟩ := rfl
  have htype : k.type = .boolean := type_eq_of_hashKey?_eq (h.trans hbool) hbool
  cases k with
  | boolAt j a =>
      have hdigest : (if a then 1 else 0 : UInt64) = if b then 1 else 0 :=
        congrArg HashKey.digest (Option.some.inj h)
      have hsame : a = b := by
        cases a <;> cases b <;> first | rfl | exact absurd hdigest (by decide)
      exact ⟨j, hsame ▸ rfl⟩
  | _ => cases htype

end Value

/-- The pairs of a literal come to the given ones, from left to right, and none
    of their keys and values stops. -/
inductive Expr.Finds (run : BodyRunner) :
    Store → List (Expr × Expr) → List (Slot Value) → Store → Prop where
  | nil {s : Store} : Expr.Finds run s [] [] s
  | cons {s s₁ s₂ s' : Store} {key value : Expr} {pairs : List (Expr × Expr)} {k v : Value}
    {hash : HashKey} {found : List (Slot Value)}
    (hkey : key.eval run s = some (k, s₁)) (hhash : k.hashKey? = some hash)
    (hvalue : value.eval run s₁ = some (v, s₂)) (hgoes : v.stops = false)
    (hrest : Expr.Finds run s₂ pairs found s') :
    Expr.Finds run s ((key, value) :: pairs) (⟨hash, k, v⟩ :: found) s'

variable {run : BodyRunner} {s s' : Store} {pairs : List (Expr × Expr)}
  {found : List (Slot Value)}

namespace Expr

/-- Every pair is found with the hash of its key. -/
theorem Finds.own (h : Finds run s pairs found s') :
    ∀ slot ∈ found, slot.key.hashKey? = some slot.hash := by
  induction h with
  | nil => exact fun slot hslot => absurd hslot List.not_mem_nil
  | cons _ hhash _ _ _ ih => exact List.forall_mem_cons.mpr ⟨hhash, ih⟩

/-- The pairs that are found are put in before the others are looked at. -/
theorem Finds.evalPairs_append (h : Finds run s pairs found s') (slots : List (Slot Value))
    (later : List (Expr × Expr)) :
    evalPairs run slots (pairs ++ later) s
      = evalPairs run (Slots.putAll slots found) later s' := by
  induction h generalizing slots with
  | nil => rfl
  | cons hkey hhash hvalue hgoes _ ih =>
      rw [List.cons_append, evalPairs_cons hkey hhash hvalue hgoes]
      exact ih _

theorem Finds.eval_map (h : Finds run s pairs found s') : (Expr.map pairs).eval run s
    = some (.map s'.nextId (Slots.putAll [] found), { s' with nextId := s'.nextId + 1 }) := by
  rw [Expr.eval, ← List.append_nil pairs, h.evalPairs_append, evalPairs]
  rfl

/-- A key that has no hash ends the literal before its value and the pairs
    behind it are looked at. -/
theorem eval_map_refused {s₁ s₂ : Store} (h : Finds run s pairs found s₁) {key : Expr} {k : Value}
    (hkey : key.eval run s₁ = some (k, s₂)) (hgoes : k.stops = false) (hhash : k.hashKey? = none)
    (value : Expr) (later : List (Expr × Expr)) :
    (Expr.map (pairs ++ (key, value) :: later)).eval run s
      = some (.error s₂.nextId (.notHashable k.type), { s₂ with nextId := s₂.nextId + 1 }) := by
  rw [Expr.eval, h.evalPairs_append, evalPairs, Eval.unlessStopped_eq hkey hgoes, hhash]
  rfl

end Expr

namespace Eval

variable {k : Value} {hash : HashKey}

/-- To index a map is to look for the slot of the key. -/
theorem index_map (h : k.hashKey? = some hash) (id : ObjectId) (slots : List (Slot Value))
    (s : Store) : index (.map id slots) k s
      = some ((Slots.find? hash slots).elim .null Slot.value, s) := by
  simp only [index, h]
  rfl

/-- The value of the last pair with the hash of a key is found with the key. -/
theorem index_last {slot : Slot Value} (hlast : Slots.Last found slot)
    (h : k.hashKey? = some slot.hash) (id : ObjectId) (s : Store) :
    index (.map id (Slots.putAll [] found)) k s = some (slot.value, s) := by
  rw [index_map h, (Slots.find?_putAll found slot.hash slot).mpr ⟨rfl, hlast⟩, Option.elim_some]

/-- Null is found with a key if there is no pair with its hash. -/
theorem index_none (hnone : ∀ slot ∈ found, slot.hash ≠ hash) (h : k.hashKey? = some hash)
    (id : ObjectId) (s : Store) :
    index (.map id (Slots.putAll [] found)) k s = some (.null, s) := by
  have hfind : Slots.find? hash (Slots.putAll [] found) = none := by
    refine Option.eq_none_iff_forall_ne_some.mpr fun slot hslot => ?_
    rcases (Slots.find?_putAll found hash slot).mp hslot with ⟨heq, hlast⟩
    exact hnone slot hlast.mem heq
  rw [index_map h, hfind, Option.elim_none]

end Eval

/-- A map literal whose keys have hashes and none of whose keys and values stops
    gives a map with one slot for each of these hashes, and in it are the last
    key and the last value with that hash. With a key that has a hash the value
    of the last pair with the same hash is found in the map, and null if there is
    none. A key that has no hash ends the literal with an error, whatever its
    value is and the pairs behind it are. Integers and truth values share a slot
    with themselves only, and values of two types never share one. -/
theorem map_last_wins (run : BodyRunner) :
    (∀ (s s' : Store) (pairs : List (Expr × Expr)) (found : List (Slot Value)),
      Expr.Finds run s pairs found s' → ∃ slots,
        (Expr.map pairs).eval run s
          = some (.map s'.nextId slots, { s' with nextId := s'.nextId + 1 }) ∧
        (slots.map Slot.hash).Nodup ∧
        (∀ hash, hash ∈ slots.map Slot.hash ↔ ∃ slot ∈ found, slot.key.hashKey? = some hash) ∧
        (∀ slot, slot ∈ slots ↔ Slots.Last found slot) ∧
        (∀ slot ∈ slots, slot.key.hashKey? = some slot.hash) ∧
        ∀ (id : ObjectId) (k : Value) (hash : HashKey) (t : Store), k.hashKey? = some hash →
          (∀ slot, Slots.Last found slot → slot.key.hashKey? = some hash →
            Eval.index (.map id slots) k t = some (slot.value, t)) ∧
          ((∀ slot ∈ found, slot.key.hashKey? ≠ some hash) →
            Eval.index (.map id slots) k t = some (.null, t))) ∧
    (∀ (s s₁ s₂ : Store) (pairs : List (Expr × Expr)) (found : List (Slot Value)) (key : Expr)
      (k : Value), Expr.Finds run s pairs found s₁ → key.eval run s₁ = some (k, s₂) →
        k.stops = false → k.hashKey? = none → ∀ value later,
          (Expr.map (pairs ++ (key, value) :: later)).eval run s
            = some (.error s₂.nextId (.notHashable k.type),
                { s₂ with nextId := s₂.nextId + 1 })) ∧
    (∀ (k : Value) (id : ObjectId) (n : Int64),
      k.hashKey? = (Value.int id n).hashKey? ↔ ∃ j, k = .int j n) ∧
    (∀ (k : Value) (id : ObjectId) (b : Bool),
      k.hashKey? = (Value.boolAt id b).hashKey? ↔ ∃ j, k = .boolAt j b) ∧
    ∀ (k k' : Value) (hash : HashKey), k.hashKey? = some hash → k'.hashKey? = some hash →
      k.type = k'.type := by
  refine ⟨fun s s' pairs found h => ?_, fun _ _ _ _ _ _ _ h hkey hgoes hhash value later =>
      Expr.eval_map_refused h hkey hgoes hhash value later,
    fun _ _ _ => Value.hashKey?_eq_int, fun _ _ _ => Value.hashKey?_eq_bool,
    fun _ _ _ hk hk' => Value.type_eq_of_hashKey?_eq hk hk'⟩
  refine ⟨Slots.putAll [] found, h.eval_map, (Slots.putAll_sorted found).nodup, fun hash => ?_,
    fun slot => Slots.mem_putAll, fun slot hslot => h.own slot (Slots.mem_putAll.mp hslot).mem,
    fun id k hash t hk => ⟨fun slot hlast hslot => ?_, fun hnone => ?_⟩⟩
  · constructor
    · intro hmem
      rcases List.mem_map.mp hmem with ⟨slot, hslot, rfl⟩
      have hfound := (Slots.mem_putAll.mp hslot).mem
      exact ⟨slot, hfound, h.own slot hfound⟩
    · rintro ⟨slot, hslot, hhash⟩
      rcases Slots.exists_last hslot with ⟨last, hlast, heq⟩
      have hown : slot.hash = hash := Option.some.inj ((h.own slot hslot).symm.trans hhash)
      exact List.mem_map.mpr ⟨last, Slots.mem_putAll.mpr hlast, heq.trans hown⟩
  · have hown : slot.hash = hash := Option.some.inj ((h.own slot hlast.mem).symm.trans hslot)
    exact Eval.index_last hlast (hown ▸ hk) id t
  · refine Eval.index_none (fun slot hslot heq => hnone slot hslot ?_) hk id t
    rw [h.own slot hslot, heq]

/-- The pairs of a literal with one key twice: `{1: "a", true: 2, 1: 4}`. -/
def repeatedKeyPairs : List (Expr × Expr) :=
  [(.int 1, .str "a"), (.bool true, .int 2), (.int 1, .int 4)]

/-- What they come to where nothing but the shared objects is there before. -/
def repeatedKeyFound : List (Slot Value) :=
  [⟨⟨.integer, 1⟩, .int 3 1, .str 4 "a"⟩, ⟨⟨.boolean, 1⟩, .bool true, .int 5 2⟩,
    ⟨⟨.integer, 1⟩, .int 6 1, .int 7 4⟩]

/-- The second value of the key that comes twice is found, with the second key,
    and an array as a further key stands in front of a value that never comes to
    an end. -/
theorem map_last_wins_repeatedKey :
    (∃ slots, (Expr.map repeatedKeyPairs).eval (Eval.body 0) .empty
        = some (.map 8 slots, { Store.empty with nextId := 9 }) ∧
      ⟨⟨.integer, 1⟩, .int 6 1, .int 7 4⟩ ∈ slots ∧
      ⟨⟨.integer, 1⟩, .int 3 1, .str 4 "a"⟩ ∉ slots ∧
      Eval.index (.map 8 slots) (.int 9 1) .empty = some (.int 7 4, .empty) ∧
      Eval.index (.map 8 slots) (.bool false) .empty = some (.null, .empty)) ∧
    (Expr.call (.fn [] []) []).eval (Eval.body 0) .empty = none ∧
    (Expr.map (repeatedKeyPairs ++ [(.array [], .call (.fn [] []) [])])).eval (Eval.body 0) .empty
      = some (.error 9 (.notHashable .array), { Store.empty with nextId := 10 }) := by
  have hfinds : Expr.Finds (Eval.body 0) .empty repeatedKeyPairs repeatedKeyFound
      { Store.empty with nextId := 8 } :=
    .cons rfl rfl rfl rfl (.cons rfl rfl rfl rfl (.cons rfl rfl rfl rfl .nil))
  rcases map_last_wins (Eval.body 0) with ⟨hmap, hrefused, -⟩
  rcases hmap _ _ _ _ hfinds with ⟨slots, heval, -, -, hslots, -, hindex⟩
  have hlast : Slots.Last repeatedKeyFound ⟨⟨.integer, 1⟩, .int 6 1, .int 7 4⟩ :=
    ⟨repeatedKeyFound.take 2, [], rfl, fun t ht => absurd ht List.not_mem_nil⟩
  refine ⟨⟨slots, heval, (hslots _).mpr hlast, fun hmem => ?_, ?_, ?_⟩, rfl, ?_⟩
  · -- The first pair is not the last one with its hash.
    have hfirst := (hslots _).mp hmem
    have hboth := (hindex 8 (.int 9 1) ⟨.integer, 1⟩ .empty rfl).1 _ hfirst rfl
    rw [(hindex 8 (.int 9 1) ⟨.integer, 1⟩ .empty rfl).1 _ hlast rfl] at hboth
    cases hboth
  · exact (hindex 8 (.int 9 1) ⟨.integer, 1⟩ .empty rfl).1 _ hlast rfl
  · refine (hindex 8 (.bool false) ⟨.boolean, 0⟩ .empty rfl).2 fun slot hslot => ?_
    simp only [repeatedKeyFound, List.mem_cons, List.not_mem_nil, or_false] at hslot
    rcases hslot with rfl | rfl | rfl <;> decide
  · exact hrefused _ _ { Store.empty with nextId := 9 } _ _ (.array []) (.array 8 []) hfinds rfl rfl
      rfl _ _

end Monkey
