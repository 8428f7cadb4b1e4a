import Mathlib.Algebra.Group.Int.Defs
import Mathlib.Data.List.Perm.Basic
import Monkey.Proofs.Values.Code
import Monkey.Proofs.Values.Maps

/-!
# How Maps Are Listed

The text of a map does not tell in which order its pairs were put in.

Pairs whose keys have different hashes do not replace each other, so all of
them are in the map, and the map is sorted. There is one way only to sort
slots of which no two have the same hash. Hence the order of insertion cannot
be seen, and neither could any other order in which the slots were stored and
gone through, provided that they are sorted before they are written
(`Slots.mergeSort_perm`).

Sorting is by the type of the key and then by its digest, which is an unsigned
word. For integers the digest is the two's complement, and this is why negative
keys are listed behind all others, although among themselves they ascend.

A map may be the value of a pair in another map. Whoever builds both may choose
an order for each, and `Value.Rearranged` is what two values have in common
that were built in such different ways.

## Main definitions

* `HashKey.Ahead`: Which of two keys is listed first.
* `Slot.notBehind`: What slots are sorted by.
* `Value.Rearranged`: Values that differ in the order of insertion, at any
  depth.

## Theorems

* `Slots.putAll_perm`: All pairs are in the map.
* `Slots.Sorted.eq_of_perm`, `Slots.mergeSort_perm`: There is one order only.
* `HashKey.digest_lt_iff`: Integers by their digests.
* `Value.Rearranged.code_eq`: The order of insertion is not printed.
* `map_listing`: How a map is listed.
-/

namespace Monkey

/-- The types of keys, in the order in which a map lists them. -/
def ValueType.ofKeys : List ValueType :=
  [.integer, .string, .boolean]

namespace HashKey

/-- One key is listed before another one: its type comes first, or it has the
    same type and the smaller digest. -/
def Ahead (a b : HashKey) : Prop :=
  ValueType.ofKeys.idxOf a.type < ValueType.ofKeys.idxOf b.type ∨
    a.type = b.type ∧ a.digest.toNat < b.digest.toNat

/-- Among the types of keys, the rank is the place in the list. -/
theorem ahead_of_before {a b : HashKey} (ha : a.type ∈ ValueType.ofKeys)
    (hb : b.type ∈ ValueType.ofKeys) (h : a.before b = true) : a.Ahead b := by
  have hrank : ∀ t ∈ ValueType.ofKeys, ValueType.ofKeys.idxOf t = t.rank := by decide
  unfold Ahead
  rw [hrank _ ha, hrank _ hb]
  exact (before_iff.mp h).imp_right fun h => ⟨ValueType.eq_of_rank_eq h.1, h.2⟩

/-- The digest of an integer is its two's complement. -/
theorem toNat_toUInt64 (n : Int64) :
    (n.toUInt64.toNat : Int) = if n.toInt < 0 then n.toInt + 2 ^ 64 else n.toInt := by
  have hbits : n.toInt = (n.toUInt64.toNat : Int).bmod (2 ^ 64) := by
    rw [← Int64.toInt_toBitVec, BitVec.toInt_eq_toNat_bmod]
    rfl
  have hlt : n.toUInt64.toNat < 2 ^ 64 := n.toUInt64.toNat_lt
  rw [Int.bmod_def] at hbits
  split at hbits <;> split <;> omega

/-- By their digests, integers ascend from zero to the largest one, and behind
    it from the smallest one to minus one. -/
theorem digest_lt_iff (m n : Int64) : m.toUInt64.toNat < n.toUInt64.toNat ↔
    0 ≤ m.toInt ∧ n.toInt < 0 ∨ m.toInt < n.toInt ∧ (m.toInt < 0 ↔ n.toInt < 0) := by
  have hm := toNat_toUInt64 m
  have hn := toNat_toUInt64 n
  have hmlt := m.toInt_lt
  have hmle := m.le_toInt
  have hnlt := n.toInt_lt
  have hnle := n.le_toInt
  split at hm <;> split at hn <;> omega

/-- Which of two integers is listed first. -/
theorem Ahead.of_int {a b : HashKey} (h : a.Ahead b) {i j : ObjectId} {m n : Int64}
    (ha : (Value.int i m).hashKey? = some a) (hb : (Value.int j n).hashKey? = some b) :
    0 ≤ m.toInt ∧ n.toInt < 0 ∨ m.toInt < n.toInt ∧ (m.toInt < 0 ↔ n.toInt < 0) := by
  cases ha
  cases hb
  -- Both have the same type, so it is for the digests to decide.
  rcases h with htype | ⟨-, hdigest⟩
  · exact absurd htype (Nat.lt_irrefl _)
  · exact (digest_lt_iff m n).mp hdigest

end HashKey

/-- What slots are sorted by: one slot may stand before another one if it does
    not have to stand behind it. -/
def Slot.notBehind {α : Type} (a b : Slot α) : Bool :=
  !b.hash.before a.hash

namespace Slots

variable {α : Type} {slots found order : List (Slot α)}

/-- A pair with a hash of its own is added to those that are there. -/
theorem insert_perm {slot : Slot α} (h : ∀ s ∈ slots, s.hash ≠ slot.hash) :
    (insert slot slots).Perm (slot :: slots) := by
  induction slots with
  | nil => exact .refl _
  | cons first rest ih =>
      rcases List.forall_mem_cons.mp h with ⟨hfirst, hrest⟩
      rw [insert, if_neg (Ne.symm hfirst)]
      split
      · exact .refl _
      · exact ((ih hrest).cons first).trans (.swap slot first rest)

/-- All pairs are in the map if no two of them have the same hash. -/
theorem putAll_perm (h : (found.map Slot.hash).Nodup) : (putAll [] found).Perm found := by
  induction found using List.reverseRecOn with
  | nil => exact .refl _
  | append_singleton found new ih =>
      rw [List.map_append, List.nodup_append] at h
      rcases h with ⟨hfound, -, hnew⟩
      have hperm := ih hfound
      rw [putAll_append]
      refine ((insert_perm fun s hs => ?_).trans (hperm.cons new)).trans
        (List.perm_append_singleton new found).symm
      exact hnew s.hash (List.mem_map_of_mem (hperm.subset hs)) new.hash List.mem_cons_self

/-- There is one way only to sort slots. -/
theorem Sorted.eq_of_perm (h : Sorted slots) (h' : Sorted found) (hperm : slots.Perm found) :
    slots = found := by
  refine hperm.eq_of_pairwise (fun a b _ _ hab hba => ?_) h h'
  exact absurd hba (HashKey.before_asymm hab)

/-- The order in which pairs are put in makes no difference. -/
theorem putAll_eq_of_perm (hnodup : (found.map Slot.hash).Nodup) (h : order.Perm found) :
    putAll [] order = putAll [] found := by
  have hnodup' : (order.map Slot.hash).Nodup := (h.map Slot.hash).nodup_iff.mpr hnodup
  refine (putAll_sorted order).eq_of_perm (putAll_sorted found) ?_
  exact ((putAll_perm hnodup').trans h).trans (putAll_perm hnodup).symm

/-- Slots that are sorted are what the map lists, whichever order they were in
    before. -/
theorem mergeSort_perm (hnodup : (found.map Slot.hash).Nodup) (h : order.Perm found) :
    order.mergeSort Slot.notBehind = putAll [] found := by
  have hperm : (order.mergeSort Slot.notBehind).Perm found := (List.mergeSort_perm ..).trans h
  have hnodup' : ((order.mergeSort Slot.notBehind).map Slot.hash).Nodup :=
    (hperm.map Slot.hash).nodup_iff.mpr hnodup
  have hsorted : Sorted (order.mergeSort Slot.notBehind) := by
    -- Slots with different hashes that do not stand behind each other stand before each other.
    have hle : (order.mergeSort Slot.notBehind).Pairwise fun a b => a.notBehind b = true := by
      refine List.pairwise_mergeSort (fun a b c hab hbc => ?_) (fun a b => ?_) order
      · simp only [Slot.notBehind, Bool.not_eq_true', ← Bool.not_eq_true] at hab hbc ⊢
        intro hca
        by_cases heq : a.hash = b.hash
        · exact hbc (heq ▸ hca)
        · exact hbc (HashKey.before_trans hca (HashKey.before_total (Ne.symm heq) hab))
      · simp only [Slot.notBehind, Bool.or_eq_true, Bool.not_eq_true', ← Bool.not_eq_true]
        by_cases hba : b.hash.before a.hash = true
        · exact .inr (HashKey.before_asymm hba)
        · exact .inl hba
    refine (hle.and (List.pairwise_map.mp hnodup')).imp fun {a b} h => ?_
    simp only [Slot.notBehind, Bool.not_eq_true', ← Bool.not_eq_true] at h
    exact HashKey.before_total (Ne.symm h.2) h.1
  exact hsorted.eq_of_perm (putAll_sorted found) (hperm.trans (putAll_perm hnodup).symm)

/-- The hashes are listed in the same order whatever is filed under them. -/
theorem Sorted.hashes_eq {β : Type} {slots' : List (Slot β)} (h : Sorted slots)
    (h' : Sorted slots') (hperm : (slots.map Slot.hash).Perm (slots'.map Slot.hash)) :
    slots.map Slot.hash = slots'.map Slot.hash := by
  have hslots : (slots.map Slot.hash).Pairwise fun a b => a.before b = true :=
    List.pairwise_map.mpr h
  refine hperm.eq_of_pairwise (fun a b _ _ hab hba => ?_) hslots (List.pairwise_map.mpr h')
  exact absurd hba (HashKey.before_asymm hab)

/-- What is read off a slot is the same for two lists of slots if it is the same
    for any two slots with one hash. -/
theorem map_eq_of_hashes_eq {β γ : Type} {f : Slot α → γ} {g : Slot β → γ}
    {slots' : List (Slot β)} (hhash : slots.map Slot.hash = slots'.map Slot.hash)
    (h : ∀ s ∈ slots, ∀ t ∈ slots', s.hash = t.hash → f s = g t) : slots.map f = slots'.map g := by
  induction slots generalizing slots' with
  | nil => rw [List.map_eq_nil_iff.mp hhash.symm]; rfl
  | cons s slots ih =>
      cases slots' with
      | nil => cases hhash
      | cons t slots' =>
          rcases List.cons.inj hhash with ⟨hfirst, hrest⟩
          rw [List.map_cons, List.map_cons, h s List.mem_cons_self t List.mem_cons_self hfirst,
            ih hrest fun s hs t ht =>
              h s (List.mem_cons_of_mem _ hs) t (List.mem_cons_of_mem _ ht)]

end Slots

namespace Value

/-- A pair as a map lists it. -/
def pairCode (slot : Slot Value) : String :=
  slot.key.code ++ ": " ++ slot.value.code

theorem code_array (id : ObjectId) (vs : List Value) :
    (Value.array id vs).code = "[" ++ Text.commaSeparated (vs.map code) ++ "]" := by
  rw [← codes_eq_map]
  rfl

theorem code_map (id : ObjectId) (slots : List (Slot Value)) :
    (Value.map id slots).code = Text.braced (Text.commaSeparated (slots.map pairCode)) := by
  have hcodes : slotCodes slots = slots.map pairCode := slotCodes_eq_map slots
  rw [← hcodes]
  rfl

/-- What may be filed is of one of the types of keys. -/
theorem type_mem_ofKeys {k : Value} {hash : HashKey} (h : k.hashKey? = some hash) :
    hash.type ∈ ValueType.ofKeys := by
  rw [type_of_hashKey? h]
  cases k with
  | int _ _ => exact List.mem_cons_self
  | str _ _ => exact List.mem_cons_of_mem _ List.mem_cons_self
  | boolAt _ _ => exact List.mem_cons_of_mem _ (List.mem_cons_of_mem _ List.mem_cons_self)
  | _ => cases h

/-- Two values that differ at most in the numbers of their objects and in the
    order in which the pairs of maps were put in, at any depth. -/
inductive Rearranged : Value → Value → Prop where
  | alike {v w : Value} (h : v.unnumbered = w.unnumbered) : Rearranged v w
  | array (id id' : ObjectId) {vs ws : List Value} (hlength : vs.length = ws.length)
    (h : ∀ i (hv : i < vs.length) (hw : i < ws.length), Rearranged vs[i] ws[i]) :
    Rearranged (.array id vs) (.array id' ws)
  | map (id id' : ObjectId) {order found : List (Slot Value)}
    (hnodup : (found.map Slot.hash).Nodup)
    (hhashes : (order.map Slot.hash).Perm (found.map Slot.hash))
    (hkeys : ∀ s ∈ order, ∀ t ∈ found, s.hash = t.hash → Rearranged s.key t.key)
    (hvalues : ∀ s ∈ order, ∀ t ∈ found, s.hash = t.hash → Rearranged s.value t.value) :
    Rearranged (.map id (Slots.putAll [] order)) (.map id' (Slots.putAll [] found))

/-- The order of insertion is not printed, however deep inside it differs. -/
theorem Rearranged.code_eq {v w : Value} (h : v.Rearranged w) : v.code = w.code := by
  induction h with
  | alike h => rw [← code_unnumbered, h, code_unnumbered]
  | @array id id' vs ws hlength _ ih =>
      have hcodes : vs.map code = ws.map code := by
        refine List.ext_getElem (by simpa using hlength) fun i hv hw => ?_
        rw [List.getElem_map, List.getElem_map]
        exact ih i (by simpa using hv) (by simpa using hw)
      rw [code_array, code_array, hcodes]
  | @map id id' order found hnodup hhashes _ _ ihkeys ihvalues =>
      have hnodup' : (order.map Slot.hash).Nodup := hhashes.nodup_iff.mpr hnodup
      have horder := Slots.putAll_perm hnodup'
      have hfound := Slots.putAll_perm hnodup
      have hpairs :
          (Slots.putAll [] order).map pairCode = (Slots.putAll [] found).map pairCode := by
        refine Slots.map_eq_of_hashes_eq ?_ fun s hs t ht hhash => ?_
        · refine (Slots.putAll_sorted order).hashes_eq (Slots.putAll_sorted found) ?_
          exact ((horder.map _).trans hhashes).trans (hfound.map _).symm
        · rw [pairCode, pairCode, ihkeys s (horder.subset hs) t (hfound.subset ht) hhash,
            ihvalues s (horder.subset hs) t (hfound.subset ht) hhash]
      rw [code_map, code_map, hpairs]

end Value

/-- How a map is listed whose pairs have keys with different hashes. Its text
    has each pair once, as the code of the key and that of the value, and the
    pairs are in the order of their keys: types first, and then digests. So the
    integers among the keys ascend from zero, and behind them the negative ones
    ascend. Put in in any other order, the pairs give the same text, and the same
    is found under each hash. Nothing else would come out if the slots were gone
    through in some order and sorted. And a pair may be replaced by one whose key
    and value were built in another order themselves. -/
theorem map_listing {found : List (Slot Value)}
    (hown : ∀ slot ∈ found, slot.key.hashKey? = some slot.hash)
    (hnodup : (found.map Slot.hash).Nodup) :
    (∀ id, (Value.map id (Slots.putAll [] found)).text
      = "\x7b" ++ String.intercalate ", " ((Slots.putAll [] found).map fun slot =>
          slot.key.code ++ ": " ++ slot.value.code) ++ "\x7d") ∧
    (Slots.putAll [] found).Perm found ∧
    (Slots.putAll [] found).Pairwise (fun s t => s.hash.Ahead t.hash) ∧
    (Slots.putAll [] found).Pairwise (fun s t => ∀ i m j n, s.key = .int i m → t.key = .int j n →
      0 ≤ m.toInt ∧ n.toInt < 0 ∨ m.toInt < n.toInt ∧ (m.toInt < 0 ↔ n.toInt < 0)) ∧
    (∀ order : List (Slot Value), order.Perm found →
      (∀ id id', (Value.map id (Slots.putAll [] order)).text
        = (Value.map id' (Slots.putAll [] found)).text) ∧
      (∀ hash, (Slots.find? hash (Slots.putAll [] order)).map Slot.value
        = (Slots.find? hash (Slots.putAll [] found)).map Slot.value) ∧
      order.mergeSort Slot.notBehind = Slots.putAll [] found) ∧
    ∀ order : List (Slot Value), (order.map Slot.hash).Perm (found.map Slot.hash) →
      (∀ s ∈ order, ∀ t ∈ found, s.hash = t.hash →
        s.key.Rearranged t.key ∧ s.value.Rearranged t.value) →
      ∀ id id', (Value.map id (Slots.putAll [] order)).text
        = (Value.map id' (Slots.putAll [] found)).text := by
  have hperm := Slots.putAll_perm hnodup
  have hslots : ∀ slot ∈ Slots.putAll [] found, slot.key.hashKey? = some slot.hash :=
    fun slot hslot => hown slot (hperm.subset hslot)
  have hahead : (Slots.putAll [] found).Pairwise fun s t => s.hash.Ahead t.hash := by
    refine List.Pairwise.imp_of_mem (fun {s t} hs ht h => ?_) (Slots.putAll_sorted found)
    exact HashKey.ahead_of_before (Value.type_mem_ofKeys (hslots s hs))
      (Value.type_mem_ofKeys (hslots t ht)) h
  have hrearranged : ∀ order : List (Slot Value),
      (order.map Slot.hash).Perm (found.map Slot.hash) →
      (∀ s ∈ order, ∀ t ∈ found, s.hash = t.hash →
        s.key.Rearranged t.key ∧ s.value.Rearranged t.value) →
      ∀ id id', (Value.map id (Slots.putAll [] order)).text
        = (Value.map id' (Slots.putAll [] found)).text :=
    -- The code of a map is its text.
    fun order hhashes h id id' => (Value.Rearranged.map id id' hnodup hhashes
      (fun s hs t ht heq => (h s hs t ht heq).1) fun s hs t ht heq => (h s hs t ht heq).2).code_eq
  refine ⟨fun id => Value.code_map id _, hperm, hahead, ?_, fun order horder => ⟨fun id id' => ?_,
    fun hash => ?_, Slots.mergeSort_perm hnodup horder⟩, hrearranged⟩
  · refine hahead.imp_of_mem fun {s t} hs ht h i m j n hm hn => ?_
    exact h.of_int (hm ▸ hslots s hs) (hn ▸ hslots t ht)
  · rw [Slots.putAll_eq_of_perm hnodup horder]
    rfl
  · rw [Slots.putAll_eq_of_perm hnodup horder]

/-- The pairs of `{2: true, -7: "x"}`. -/
def innerPairs : List (Slot Value) :=
  [⟨⟨.integer, 2⟩, .int 4 2, .bool true⟩,
    ⟨⟨.integer, (-7 : Int64).toUInt64⟩, .int 5 (-7), .str 6 "x"⟩]

/-- Keys of all types, with two negative integers among them and a map as a
    value. -/
def mixedPairs : List (Slot Value) :=
  [⟨⟨.boolean, 1⟩, .bool true, .null⟩,
    ⟨⟨.integer, (-1 : Int64).toUInt64⟩, .int 7 (-1), .map 8 (Slots.putAll [] innerPairs)⟩,
    ⟨⟨.string, Text.digest "k"⟩, .str 9 "k", .int 10 0⟩,
    ⟨⟨.integer, (-3 : Int64).toUInt64⟩, .int 11 (-3), .int 12 1⟩,
    ⟨⟨.integer, 5⟩, .int 13 5, .int 14 2⟩]

/-- The pairs are put in backwards, and the negative integers come behind the
    other one and stay in front of the string. -/
theorem map_listing_mixedPairs :
    (∀ slot ∈ mixedPairs, slot.key.hashKey? = some slot.hash) ∧
      (mixedPairs.map Slot.hash).Nodup ∧
      (Value.map 15 (Slots.putAll [] mixedPairs.reverse)).text
        = "\x7b5: 2, -3: 1, -1: \x7b2: true, -7: \"x\"\x7d, \"k\": 0, true: null\x7d" ∧
      mixedPairs.mergeSort Slot.notBehind = Slots.putAll [] mixedPairs := by
  have hown : ∀ slot ∈ mixedPairs, slot.key.hashKey? = some slot.hash := by
    decide +kernel
  have hnodup : (mixedPairs.map Slot.hash).Nodup := by decide +kernel
  rcases map_listing hown hnodup with ⟨-, -, -, -, horder, -⟩
  refine ⟨hown, hnodup, ?_, (horder mixedPairs (.refl _)).2.2⟩
  rw [(horder _ (List.reverse_perm _)).1 15 15]
  decide +kernel

end Monkey
