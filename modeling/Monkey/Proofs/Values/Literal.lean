import Monkey.Proofs.Printing.RoundTrip
import Monkey.Proofs.Values.Data
import Monkey.Session

/-!
# Values as Literals

The expression that a value is written as.

The code form of a value without functions is an expression of the language.
A string is a literal, a map has its pairs in the order of its slots, and a
negative integer is the minus in front of the integer without its sign. There
is no such integer for the smallest one, and so the smallest integer alone
cannot be written down. Whatever it does not occur in is printed as its
literal (`Value.literal_printed`).

Evaluating a literal takes numbers and does nothing else to the store, and it
gives the same value with other numbers (`Value.literal_gives`). For a map this
needs that its slots are sorted: the pairs are put in one by one in the order
of the slots, so each of them is put behind those before it, and none takes
the place of another one.

## Main definitions

* `Value.literal`: The expression that a value is written as.
* `Expr.Gives`: An expression gives a value, but for numbers.

## Theorems

* `Value.literal_printed`: The code form of a value is its literal.
* `Value.literal_gives`: The literal of a value gives the value.
* `Store.run_of_gives`: A program that consists of such an expression.
-/

namespace Monkey

open Grammar Lexer

mutual

/-- The expression that a value is written as, if it is data. -/
def Value.literal : Value → Expr
  | .boolAt _ b => .bool b
  | .int _ n => if n.toInt < 0 then .unary .minus (.int (-n)) else .int n
  | .str _ contents => .str contents
  | .array _ elements => .array (Value.literals elements)
  | .map _ slots => .map (Value.slotLiterals slots)
  -- Other values are not written down, and nothing is said about their literals.
  | _ => .bool false

/-- The expressions that values are written as, one by one. -/
def Value.literals : List Value → List Expr
  | [] => []
  | v :: vs => v.literal :: Value.literals vs

/-- The pairs that the slots of a map are written as. -/
def Value.slotLiterals : List (Slot Value) → List (Expr × Expr)
  | [] => []
  | ⟨_, key, value⟩ :: slots => (key.literal, value.literal) :: Value.slotLiterals slots

end

/-- Without its sign, a negative integer other than the smallest one is an
    integer too. -/
theorem toInt_neg_of_ne_smallest {n : Int64} (h : n ≠ Int64.minValue) :
    (-n).toInt = -n.toInt := by
  have hne : n.toInt ≠ -2 ^ 63 := fun heq =>
    h (Int64.toInt_inj.mp (heq.trans Int64.toInt_minValue.symm))
  have hle := n.le_toInt
  have hlt := n.toInt_lt
  rw [Int64.toInt_neg]
  exact Int.bmod_eq_of_le (by omega) (by omega)

/-- A negative integer is printed as the minus in front of the integer without
    its sign. -/
theorem signedDecimal_neg {n : Int64} (hneg : n.toInt < 0) (h : n ≠ Int64.minValue) :
    Text.signedDecimal n = "-" ++ Text.signedDecimal (-n) := by
  have hback := toInt_neg_of_ne_smallest h
  unfold Text.signedDecimal
  rw [if_pos hneg, if_neg (by omega), hback, Int.natAbs_neg]

namespace Value

theorem literal_printed_int {id : ObjectId} {n : Int64} (h : n ≠ Int64.minValue) :
    Printed (.expr .unary) (literal (.int id n)) (code (.int id n)) := by
  intro rest hrest
  change Covers (.expr .unary) (literal (.int id n)) ((Text.signedDecimal n).toList ++ rest) rest
  rw [literal]
  by_cases hneg : n.toInt < 0
  · have hback := toInt_neg_of_ne_smallest h
    have hdigits := printed_int (n := -n) (by omega) rest hrest
    rw [if_pos hneg, signedDecimal_neg hneg h, String.toList_append, List.append_assoc]
    exact .unary (spells_sign (c := '-') rfl _) (.inr rfl) (hdigits.lower (by decide))
  · rw [if_neg hneg]
    exact (printed_int (by omega) rest hrest).lower (by decide)

theorem literals_printed {vs : List Value}
    (h : ∀ v ∈ vs, Printed (.expr .unary) v.literal v.code) :
    List.Forall₂ (Printed (.item .expression)) (literals vs) (codes vs) := by
  induction vs with
  | nil => exact .nil
  | cons v vs ih =>
      rcases List.forall_mem_cons.mp h with ⟨hv, hvs⟩
      exact .cons hv.item (ih hvs)

theorem slotLiterals_printed {slots : List (Slot Value)}
    (h : ∀ slot ∈ slots, Printed (.expr .unary) slot.key.literal slot.key.code ∧
      Printed (.expr .unary) slot.value.literal slot.value.code) :
    List.Forall₂ PrintedPair (slotLiterals slots) (slotCodes slots) := by
  induction slots with
  | nil => exact .nil
  | cons slot slots ih =>
      rcases List.forall_mem_cons.mp h with ⟨⟨hkey, hvalue⟩, hslots⟩
      exact .cons ⟨slot.key.code, slot.value.code, rfl, hkey.loosest, hvalue.loosest⟩ (ih hslots)

/-- The code form of data is the literal, unless the smallest integer occurs
    in it. -/
theorem literal_printed {v : Value} (hv : v.Data) (h : ¬v.HasSmallest) :
    Printed (.expr .unary) v.literal v.code := by
  induction hv using Data.induct with
  | bool id b => exact (printed_bool b).lower (by decide)
  | int id n => exact literal_printed_int fun hn => h (hasSmallest_int.mpr hn)
  | str id contents => exact (printed_str contents).lower (by decide)
  | array id elements _ ih =>
      have helements := literals_printed fun v hv => ih v hv fun hsmallest =>
        h (hasSmallest_array.mpr ⟨v, hv, hsmallest⟩)
      exact (printed_array helements).lower (by decide)
  | map id slots _ _ _ ihkeys ihvalues =>
      have hslots := slotLiterals_printed fun slot hslot =>
        ⟨ihkeys slot hslot fun hsmallest => h (hasSmallest_map.mpr ⟨slot, hslot, .inl hsmallest⟩),
          ihvalues slot hslot fun hsmallest =>
            h (hasSmallest_map.mpr ⟨slot, hslot, .inr hsmallest⟩)⟩
      exact (printed_map hslots).lower (by decide)

end Value

namespace Eval

variable {α β : Type} {s s' : Store}

theorem bind_eq {m : Eval α} {a : α} (h : m s = some (a, s')) (f : α → Eval β) :
    (m >>= f) s = f a s' := by
  change (m s).bind _ = _
  rw [h]
  rfl

theorem unlessStopped_eq {m : Eval Value} {v : Value} (h : m s = some (v, s'))
    (hv : v.stops = false) (f : Value → Eval Value) : m.unlessStopped f s = f v s' := by
  unfold unlessStopped
  rw [bind_eq h, hv]
  rfl

theorem unlessStopped_stopped {m : Eval Value} {v : Value} (h : m s = some (v, s'))
    (hv : v.stops = true) (f : Value → Eval Value) : m.unlessStopped f s = some (v, s') := by
  unfold unlessStopped
  rw [bind_eq h, hv]
  rfl

end Eval

/-- An expression gives a value, with numbers that are free then, and all it
    does to a store is to spend numbers. -/
def Expr.Gives (e : Expr) (v : Value) : Prop :=
  ∀ (run : BodyRunner) (s : Store), ∃ w n, e.eval run s = some (w, { s with nextId := n }) ∧
    w.unnumbered = v.unnumbered

namespace Value

theorem Data.stops {v : Value} (h : v.Data) : v.stops = false := by
  cases h <;> rfl

theorem stops_of_alike {v w : Value} (h : w.unnumbered = v.unnumbered) (hv : v.stops = false) :
    w.stops = false := by
  rw [← stops_unnumbered, h, stops_unnumbered, hv]

end Value

/-- A pair whose key has a hash and whose value does not stop is put in, and then
    come the others. -/
theorem Expr.evalPairs_cons {run : BodyRunner} {s s₁ s₂ : Store} {key value : Expr} {k v : Value}
    {hash : HashKey} (hkey : key.eval run s = some (k, s₁)) (hhash : k.hashKey? = some hash)
    (hvalue : value.eval run s₁ = some (v, s₂)) (hgoes : v.stops = false)
    (slots : List (Slot Value)) (pairs : List (Expr × Expr)) :
    evalPairs run slots ((key, value) :: pairs) s
      = evalPairs run (Slots.insert ⟨hash, k, v⟩ slots) pairs s₂ := by
  rw [evalPairs, Eval.unlessStopped_eq hkey (Value.stops_of_hashKey? hhash), hhash]
  change (value.eval run).unlessStopped _ _ = _
  rw [Eval.unlessStopped_eq hvalue hgoes]

namespace Value

/-- A minus takes the sign away that the literal has left out. -/
theorem literal_gives_int (id : ObjectId) (n : Int64) :
    (literal (.int id n)).Gives (.int id n) := by
  intro run s
  rw [literal]
  by_cases hneg : n.toInt < 0
  · refine ⟨.int (s.nextId + 1) n, s.nextId + 2, ?_, rfl⟩
    rw [if_pos hneg]
    change some (Value.int (s.nextId + 1) (- -n), { s with nextId := s.nextId + 2 }) = _
    rw [Int64.neg_neg]
  · rw [if_neg hneg]
    exact ⟨.int s.nextId n, s.nextId + 1, rfl, rfl⟩

/-- The elements of an array give their values one by one. -/
theorem literals_give {vs : List Value} (h : ∀ v ∈ vs, v.literal.Gives v ∧ v.stops = false)
    (run : BodyRunner) (s : Store) : ∃ ws n,
      Expr.evalList run (literals vs) s = some (.ok ws, { s with nextId := n }) ∧
        allUnnumbered ws = allUnnumbered vs := by
  induction vs generalizing s with
  | nil => exact ⟨[], s.nextId, rfl, rfl⟩
  | cons v vs ih =>
      rcases List.forall_mem_cons.mp h with ⟨⟨hv, hstops⟩, hvs⟩
      rcases hv run s with ⟨w, n, heval, hw⟩
      rcases ih hvs { s with nextId := n } with ⟨ws, n', hevals, hws⟩
      refine ⟨w :: ws, n', ?_, ?_⟩
      · rw [literals, Expr.evalList, Eval.bind_eq heval, stops_of_alike hw hstops,
          if_neg Bool.false_ne_true, Eval.bind_eq hevals]
        rfl
      · rw [allUnnumbered, allUnnumbered, hw, hws]

/-- The pairs of a map are put behind those that are there, if their keys come
    behind. -/
theorem slotLiterals_give {slots : List (Slot Value)} (hsorted : Slots.Sorted slots)
    (hown : ∀ slot ∈ slots, slot.key.hashKey? = some slot.hash)
    (h : ∀ slot ∈ slots, slot.key.literal.Gives slot.key ∧ slot.value.literal.Gives slot.value ∧
      slot.value.stops = false) (run : BodyRunner) :
    ∀ (front : List (Slot Value)) (s : Store),
      (∀ f ∈ front, ∀ slot ∈ slots, f.hash.before slot.hash = true) →
        ∃ id found n, Expr.evalPairs run front (slotLiterals slots) s
            = some (.map id found, { s with nextId := n }) ∧
          slotsUnnumbered found = slotsUnnumbered front ++ slotsUnnumbered slots := by
  induction slots with
  | nil =>
      intro front s _
      exact ⟨s.nextId, front, s.nextId + 1, rfl, (List.append_nil _).symm⟩
  | cons slot slots ih =>
      intro front s hfront
      rcases List.pairwise_cons.mp hsorted with ⟨hfirst, hrest⟩
      rcases List.forall_mem_cons.mp hown with ⟨hhash, howns⟩
      rcases List.forall_mem_cons.mp h with ⟨⟨hkey, hvalue, hstops⟩, hslots⟩
      rcases hkey run s with ⟨k, n, hevalKey, hk⟩
      rcases hvalue run { s with nextId := n } with ⟨w, n', hevalValue, hw⟩
      have hkhash : k.hashKey? = some slot.hash := by
        rw [← hashKey?_unnumbered, hk, hashKey?_unnumbered, hhash]
      -- The key comes behind all that have been put in, so the pair goes to the end.
      have hinsert : Slots.insert ⟨slot.hash, k, w⟩ front = front ++ [⟨slot.hash, k, w⟩] :=
        Slots.insert_last fun f hf => hfront f hf slot List.mem_cons_self
      have hfront' : ∀ f ∈ front ++ [⟨slot.hash, k, w⟩], ∀ later ∈ slots,
          f.hash.before later.hash = true := by
        intro f hf later hlater
        rcases List.mem_append.mp hf with hf | hf
        · exact hfront f hf later (List.mem_cons_of_mem _ hlater)
        · rw [List.mem_singleton.mp hf]
          exact hfirst later hlater
      rcases ih hrest howns hslots _ { s with nextId := n' } hfront' with
        ⟨id, found, n'', hevals, hfound⟩
      refine ⟨id, found, n'', ?_, ?_⟩
      · rw [slotLiterals, Expr.evalPairs_cons hevalKey hkhash hevalValue (stops_of_alike hw hstops),
          hinsert]
        exact hevals
      · rw [hfound, slotsUnnumbered_append, List.append_assoc]
        simp only [slotsUnnumbered, hk, hw, List.cons_append, List.nil_append]

/-- The literal of data gives the data. -/
theorem literal_gives {v : Value} (hv : v.Data) : v.literal.Gives v := by
  have hboth : v.literal.Gives v ∧ v.stops = false := by
    induction hv using Data.induct with
    | bool id b => exact ⟨fun run s => ⟨.bool b, s.nextId, rfl, rfl⟩, rfl⟩
    | int id n => exact ⟨literal_gives_int id n, rfl⟩
    | str id contents => exact ⟨fun run s => ⟨.str s.nextId contents, s.nextId + 1, rfl, rfl⟩, rfl⟩
    | array id elements _ ih =>
        refine ⟨fun run s => ?_, rfl⟩
        rcases literals_give ih run s with ⟨ws, n, hevals, hws⟩
        refine ⟨.array n ws, n + 1, ?_, ?_⟩
        · rw [literal, Expr.eval, Eval.bind_eq hevals]
          rfl
        · rw [unnumbered, unnumbered, hws]
    | map id slots hbuilt _ _ ihkeys ihvalues =>
        refine ⟨fun run s => ?_, rfl⟩
        have hslots := slotLiterals_give hbuilt.sorted hbuilt.own fun slot hslot =>
          ⟨(ihkeys slot hslot).1, ihvalues slot hslot⟩
        rcases hslots run [] s (fun f hf => absurd hf List.not_mem_nil) with
          ⟨id', found, n, hevals, hfound⟩
        refine ⟨.map id' found, n, ?_, ?_⟩
        · rw [literal, Expr.eval]
          exact hevals
        · rw [unnumbered, unnumbered, hfound]
          rfl
  exact hboth.1

end Value

/-- A program that is one expression reports what the expression gives. -/
theorem Store.run_of_gives {e : Expr} {v : Value} (h : e.Gives v) (hv : v.stops = false)
    (limit : Nat) (scope : ScopeId) (s : Store) : ∃ report after w,
      s.run limit scope [.expr e] = some (report, after) ∧ report.result = some w ∧
        w.unnumbered = v.unnumbered := by
  rcases h (Eval.body limit) (s.clearJournal.enter scope) with ⟨w, n, heval, hw⟩
  have hstops := Value.stops_of_alike hw hv
  have hprogram : Program.eval limit scope [.expr e] s.clearJournal
      = some (some w, { s.clearJournal.enter scope with nextId := n }) := by
    have henter : Eval.enter scope s.clearJournal
        = some (s.clearJournal.current, s.clearJournal.enter scope) := rfl
    rw [Program.eval, Eval.bind_eq henter, Program.evalFrom, Stmt.eval, Eval.bind_eq heval]
    cases w with
    | returned id inner => cases hstops
    | error id cause => cases hstops
    | _ => rfl
  refine ⟨⟨some w, "", []⟩, { s.clearJournal.enter scope with nextId := n }, w, ?_, rfl, hw⟩
  unfold Store.run
  change (Program.eval limit scope [.expr e] s.clearJournal).bind _ = _
  rw [hprogram]
  rfl

end Monkey
