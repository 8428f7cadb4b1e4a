import Mathlib.Algebra.Ring.Nat
import Monkey.Proofs.Evaluation.Operations

/-!
# Arrays are Lists

What programs find out about the elements of an array, and what they can build
of them.

A program has six ways to deal with an array: it can ask for its length, look
up an element by its position, ask for the first or the last one, and have a
new array made, which is the rest behind the first element or has one element
more at its end. Each of these has an answer of its own where there is nothing
to be found, and each of these answers has to fit the others.

They fit because all of them are about positions. `Value.nth` is what stands at
a position of a list, where positions are all integers, and null stands in
front of the list and behind its end. An index is a position, the first element
stands at zero and the last one in front of the length, and what is pushed or
left off moves no more than the positions say.

So programs can go through arrays. Whoever takes the first element and goes on
with the rest sees every element once, in order (`Eval.visit_eq`), and whoever
pushes them again has an array with the same elements (`Eval.pushAll_eq`). The
elements are the very objects that were there, as no operation makes anything
but the array that it yields.

## Main definitions

* `Value.nth`: What stands at a position of a list.
* `Store.made`: The store behind some new objects.
* `Eval.visit`, `Eval.pushAll`: To take an array apart, and to build one.
* `Eval.HasLength`: What the length of a value is.
* `Eval.ActsAsList`: An array in terms of its elements.

## Theorems

* `Value.nth_push_of_lt`, `Value.nth_tail` and the like: Positions in lists.
* `Eval.index_array`: An index is a position.
* `Eval.visit_eq`, `Eval.pushAll_eq`: The loops.
* `Eval.array_actsAsList`: Every array in terms of its elements.
-/

namespace Monkey

namespace Value

variable {vs : List Value} {z : Int}

/-- What stands at a position of a list. In front of the list and behind its end
    it is null. -/
def nth (vs : List Value) : Int → Value
  | .ofNat k => vs[k]?.getD .null
  | .negSucc _ => .null

theorem nth_natCast (vs : List Value) (k : Nat) : nth vs k = vs[k]?.getD .null :=
  rfl

theorem nth_of_lt {k : Nat} (h : k < vs.length) : nth vs k = vs[k] := by
  rw [nth_natCast, List.getElem?_eq_getElem h, Option.getD_some]

theorem nth_of_neg (h : z < 0) : nth vs z = .null := by
  cases z with
  | ofNat k => exact absurd h (Int.not_lt.mpr (Int.natCast_nonneg k))
  | negSucc k => rfl

theorem nth_of_le (h : vs.length ≤ z) : nth vs z = .null := by
  obtain ⟨k, rfl⟩ := Int.eq_ofNat_of_zero_le (Int.le_trans (Int.natCast_nonneg _) h)
  rw [nth_natCast, List.getElem?_eq_none (Int.ofNat_le.mp h), Option.getD_none]

/-- What is pushed stands behind everything else. -/
theorem nth_push_of_lt (v : Value) (h : z < vs.length) : nth (vs ++ [v]) z = nth vs z := by
  cases z with
  | ofNat k =>
      have hk : k < vs.length := Int.ofNat_lt.mp h
      simp only [nth, List.getElem?_append_left hk]
  | negSucc k => rfl

theorem nth_push_length (vs : List Value) (v : Value) : nth (vs ++ [v]) vs.length = v := by
  rw [nth_natCast, List.getElem?_concat_length, Option.getD_some]

/-- Behind the first element everything stands at the position behind. -/
theorem nth_tail (vs : List Value) (h : 0 ≤ z) : nth vs.tail z = nth vs (z + 1) := by
  obtain ⟨k, rfl⟩ := Int.eq_ofNat_of_zero_le h
  rw [← Int.natCast_succ, nth_natCast, nth_natCast, List.getElem?_tail]

theorem nth_zero (vs : List Value) : nth vs 0 = vs.head?.getD .null := by
  rw [List.head?_eq_getElem?]
  rfl

/-- The last element stands in front of the length. If there is none, then that
    is in front of the list. -/
theorem nth_length_sub_one (vs : List Value) :
    nth vs (vs.length - 1) = vs.getLast?.getD .null := by
  cases vs with
  | nil => rfl
  | cons v vs =>
      have hlast : ((v :: vs).length : Int) - 1 = (vs.length : Nat) := by
        rw [List.length_cons, Int.natCast_succ, Int.add_sub_cancel]
      rw [hlast, nth_natCast, List.getLast?_eq_getElem?, List.length_cons, Nat.add_sub_cancel]

end Value

namespace Store

/-- The store when so many objects were made and nothing else was done. -/
def made (store : Store) (count : Nat) : Store :=
  { store with nextId := store.nextId + count }

theorem made_made (store : Store) (j k : Nat) : (store.made j).made k = store.made (j + k) := by
  simp only [made, Nat.add_assoc]

/-- All names stand for what they stood for. -/
theorem get?_made (store : Store) (count : Nat) (scope : ScopeId) (name : String) :
    (store.made count).get? scope name = store.get? scope name := by
  have hscopes : (store.made count).scopes = store.scopes := rfl
  rw [get?, chain_of_eq hscopes, get?]

end Store

namespace Eval

/-- An element is looked up at the position that the index is. -/
theorem elementAt_eq (vs : List Value) (n : Int64) : elementAt vs n = Value.nth vs n.toInt := by
  unfold elementAt
  by_cases hneg : n < 0
  · have hint : n.toInt < 0 := Int64.lt_iff_toInt_lt.mp hneg
    rw [if_pos hneg, Value.nth_of_neg hint]
  · have hint : ¬n.toInt < 0 := fun h => hneg (Int64.lt_iff_toInt_lt.mpr h)
    rw [if_neg hneg, ← Value.nth_natCast, Int.toNat_of_nonneg (Int.not_lt.mp hint)]

theorem index_array (a j : ObjectId) (vs : List Value) (n : Int64) (s : Store) :
    index (.array a vs) (.int j n) s = some (Value.nth vs n.toInt, s) :=
  congrArg (fun v => some (v, s)) (elementAt_eq vs n)

variable (run : BodyRunner)

/-- Takes the first element of an array and goes on with the rest, so many times.
    Yields what was taken, in order, and the array that is left. -/
def visit (first rest : ObjectId) : Nat → Value → Eval (List Value × Value)
  | 0, a => pure ([], a)
  | k + 1, a => do
    let v ← call run (.builtin first .first) [a]
    let behind ← call run (.builtin rest .rest) [a]
    let found ← visit first rest k behind
    return (v :: found.1, found.2)

/-- Pushes values onto an array, one by one. -/
def pushAll (push : ObjectId) : Value → List Value → Eval Value
  | a, [] => pure a
  | a, v :: vs => do
    let longer ← call run (.builtin push .push) [a, v]
    pushAll push longer vs

variable {run}

theorem call_rest_cons (i a : ObjectId) (v : Value) (vs : List Value) (s : Store) :
    call run (.builtin i .rest) [.array a (v :: vs)] s = some (.array s.nextId vs, s.made 1) :=
  rfl

theorem call_push (i a : ObjectId) (vs : List Value) (v : Value) (s : Store) :
    call run (.builtin i .push) [.array a vs, v] s
      = some (.array s.nextId (vs ++ [v]), s.made 1) :=
  rfl

/-- As many elements as there are are visited in order. What is left are the
    others. -/
theorem visit_eq (i j : ObjectId) {vs : List Value} {k : Nat} (h : k ≤ vs.length) (a : ObjectId)
    (s : Store) : ∃ left, visit run i j k (.array a vs) s
      = some ((vs.take k, .array left (vs.drop k)), s.made k) := by
  induction k generalizing vs a s with
  | zero => exact ⟨a, rfl⟩
  | succ k ih =>
      -- The rest is another array, so the induction is for every array and store.
      cases vs with
      | nil => exact absurd h (Nat.not_succ_le_zero k)
      | cons v vs =>
          rcases ih (Nat.le_of_succ_le_succ h) s.nextId (s.made 1) with ⟨left, hrest⟩
          -- Both calls look at the same array, and only the second one makes an object.
          have hstep : visit run i j (k + 1) (.array a (v :: vs)) s
              = (visit run i j k (.array s.nextId vs) (s.made 1)).map fun found =>
                ((v :: found.1.1, found.1.2), found.2) := by
            change (visit run i j k (.array s.nextId vs) (s.made 1)).bind _ = _
            cases visit run i j k (.array s.nextId vs) (s.made 1) <;> rfl
          refine ⟨left, ?_⟩
          rw [hstep, hrest, Store.made_made, Nat.add_comm 1 k]
          rfl

/-- What is pushed is behind what was there, in order. -/
theorem pushAll_eq (i : ObjectId) (vs : List Value) (a : ObjectId) (us : List Value) (s : Store) :
    ∃ b, pushAll run i (.array a us) vs s = some (.array b (us ++ vs), s.made vs.length) := by
  induction vs generalizing a us s with
  | nil => exact ⟨a, by rw [List.append_nil]; rfl⟩
  | cons v vs ih =>
      rcases ih s.nextId (us ++ [v]) (s.made 1) with ⟨b, hrest⟩
      refine ⟨b, ?_⟩
      have hstep : pushAll run i (.array a us) (v :: vs) s
          = pushAll run i (.array s.nextId (us ++ [v])) vs (s.made 1) := rfl
      rw [hstep, hrest, Store.made_made, List.append_assoc, List.singleton_append, List.length_cons,
        Nat.add_comm 1]

variable (run)

/-- The length of a value is an integer that is made, and it is the given number
    if a 64-bit integer can be. -/
def HasLength (a : Value) (length : Nat) : Prop :=
  ∀ (i : ObjectId) (s : Store), ∃ n,
    call run (.builtin i .len) [a] s = some (.int s.nextId n, s.made 1) ∧
    (length < 2 ^ 63 → n.toInt = length)

/-- An array does what the list of its elements says, whatever builtin objects it
    is given to, in every store. What is said of lengths that are no 64-bit
    integers concerns arrays that are longer than any memory. -/
structure ActsAsList (a : ObjectId) (vs : List Value) : Prop where
  len : HasLength run (.array a vs) vs.length
  /-- An index is a position. -/
  element : ∀ (j : ObjectId) (n : Int64) (s : Store) (k : Nat) (h : k < vs.length), n.toInt = k →
    index (.array a vs) (.int j n) s = some (vs[k], s)
  /-- In front of the array and behind its end there is null. -/
  outside : ∀ (j : ObjectId) (n : Int64) (s : Store), n.toInt < 0 ∨ vs.length ≤ n.toInt →
    index (.array a vs) (.int j n) s = some (.null, s)
  first : ∀ (i j : ObjectId) (s : Store),
    call run (.builtin i .first) [.array a vs] s = index (.array a vs) (.int j 0) s
  /-- The last element is found with an index of one less than the length. -/
  last : vs.length < 2 ^ 63 → ∀ (i j l : ObjectId) (s t t' : Store) (n : Int64),
    call run (.builtin l .len) [.array a vs] t = some (.int t.nextId n, t') →
      call run (.builtin i .last) [.array a vs] s = index (.array a vs) (.int j (n - 1)) s
  /-- A new array with one element more. -/
  push : ∀ (i : ObjectId) (v : Value) (s : Store), ∃ longer,
    call run (.builtin i .push) [.array a vs, v] s = some (longer, s.made 1) ∧
    HasLength run longer (vs.length + 1) ∧
    (∀ (j : ObjectId) (n : Int64) (t : Store), n.toInt < vs.length →
      index longer (.int j n) t = index (.array a vs) (.int j n) t) ∧
    ∀ (j : ObjectId) (n : Int64) (t : Store), n.toInt = vs.length →
      index longer (.int j n) t = some (v, t)
  /-- A new array without the first element. It may be empty. -/
  rest : vs ≠ [] → ∀ (i : ObjectId) (s : Store), ∃ behind,
    call run (.builtin i .rest) [.array a vs] s = some (.array s.nextId behind, s.made 1) ∧
    HasLength run (.array s.nextId behind) (vs.length - 1) ∧
    ∀ (j l : ObjectId) (m n : Int64) (t : Store), 0 ≤ m.toInt → n.toInt = m.toInt + 1 →
      index (.array s.nextId behind) (.int j m) t = index (.array a vs) (.int l n) t
  restOfNone : vs = [] → ∀ (i : ObjectId) (s : Store),
    call run (.builtin i .rest) [.array a vs] s = some (.null, s)
  /-- All elements are visited, the very objects in order, and then none is left.
      There is one left as long as one was not visited. -/
  visited : ∀ (i j : ObjectId) (k : Nat) (s : Store), k ≤ vs.length → ∃ left,
    visit run i j k (.array a vs) s
      = some ((vs.take k, .array left (vs.drop k)), s.made k) ∧
    HasLength run (.array left (vs.drop k)) (vs.length - k)
  /-- An array with the same elements is built by pushing them onto an empty one. -/
  rebuilt : ∀ (i b : ObjectId) (s : Store), ∃ c,
    pushAll run i (.array b []) vs s = some (.array c vs, s.made vs.length)

variable {run}

theorem hasLength_array (a : ObjectId) (vs : List Value) :
    HasLength run (.array a vs) vs.length :=
  fun _ _ => ⟨Int64.ofNat vs.length, rfl, Int64.toInt_ofNat_of_lt⟩

/-- One less than a length that a 64-bit integer can be. -/
theorem toInt_ofNat_sub_one {k : Nat} (h : k < 2 ^ 63) :
    (Int64.ofNat k - 1).toInt = (k : Int) - 1 := by
  have hone : (1 : Int64).toInt = 1 := rfl
  rw [Int64.toInt_sub, Int64.toInt_ofNat_of_lt h, hone]
  exact Int.bmod_eq_of_le (by omega) (by omega)

/-- Every array acts as the list of its elements. A program can look up each
    element by its position, and finds null at all other positions; the first and
    the last element are at zero and in front of the length; what is pushed is
    behind all other elements, and the rest is what is behind the first one. A
    program that takes the first element and goes on with the rest has seen all
    elements, in order, when there is none left, and can build the array again.
    All of this makes new arrays and lengths, and does nothing else to the store,
    so the array and whatever else has a name is what it was. -/
theorem array_actsAsList (run : BodyRunner) (a : ObjectId) (vs : List Value) :
    ActsAsList run a vs ∧
    ∀ (s : Store) (count : Nat) (scope : ScopeId) (name : String),
      (s.made count).get? scope name = s.get? scope name := by
  refine ⟨?_, Store.get?_made⟩
  constructor
  case len => exact hasLength_array a vs
  case element =>
    intro j n s k h hn
    rw [index_array, hn, Value.nth_of_lt h]
  case outside =>
    intro j n s hn
    rw [index_array]
    rcases hn with hneg | hle
    · rw [Value.nth_of_neg hneg]
    · rw [Value.nth_of_le hle]
  case first =>
    intro i j s
    rw [index_array, Int64.toInt_zero, Value.nth_zero]
    rfl
  case last =>
    intro hsize i j l s t t' n hlen
    cases hlen
    rw [index_array, toInt_ofNat_sub_one hsize, Value.nth_length_sub_one]
    rfl
  case push =>
    intro i v s
    refine ⟨.array s.nextId (vs ++ [v]), call_push i a vs v s, ?_, ?_, ?_⟩
    · have hlength : HasLength run (.array s.nextId (vs ++ [v])) (vs ++ [v]).length :=
        hasLength_array s.nextId (vs ++ [v])
      rwa [List.length_append] at hlength
    · intro j n t hn
      rw [index_array, index_array, Value.nth_push_of_lt v hn]
    · intro j n t hn
      rw [index_array, hn, Value.nth_push_length]
  case rest =>
    intro hne i s
    obtain ⟨v, tail, rfl⟩ : ∃ v tail, vs = v :: tail := List.exists_cons_of_ne_nil hne
    refine ⟨tail, call_rest_cons i a v tail s, hasLength_array s.nextId tail, ?_⟩
    intro j l m n t hm hn
    rw [index_array, index_array, hn, ← Value.nth_tail (v :: tail) hm, List.tail_cons]
  case restOfNone =>
    rintro rfl i s
    rfl
  case visited =>
    intro i j k s hk
    rcases visit_eq i j hk a s with ⟨left, hvisit⟩
    refine ⟨left, hvisit, ?_⟩
    have hlength : HasLength run (.array left (vs.drop k)) (vs.drop k).length :=
      hasLength_array left (vs.drop k)
    rwa [List.length_drop] at hlength
  case rebuilt =>
    intro i b s
    exact pushAll_eq i vs b [] s

/-- One object twice, with an empty array between. -/
def repeatedElements : List Value :=
  [.str 3 "x", .array 4 [], .str 3 "x"]

theorem array_actsAsList_repeatedElements :
    (∃ left, visit (body 0) 7 8 3 (.array 5 repeatedElements) .empty
      = some ((repeatedElements, .array left []), Store.empty.made 3)) ∧
    call (body 0) (.builtin 7 .last) [.array 5 repeatedElements] .empty
      = index (.array 5 repeatedElements) (.int 9 2) .empty ∧
    index (.array 5 repeatedElements) (.int 9 2) .empty = some (.str 3 "x", .empty) ∧
    index (.array 5 repeatedElements) (.int 9 (-1)) .empty = some (.null, .empty) := by
  rcases array_actsAsList (body 0) 5 repeatedElements with ⟨hlist, -⟩
  rcases hlist.visited 7 8 3 .empty (by decide) with ⟨left, hvisit, -⟩
  exact ⟨⟨left, hvisit⟩, hlist.last (by decide) 7 9 6 .empty .empty _ 3 rfl,
    hlist.element 9 2 .empty 2 (by decide) rfl, hlist.outside 9 (-1) .empty (.inl (by decide))⟩

end Eval

end Monkey
