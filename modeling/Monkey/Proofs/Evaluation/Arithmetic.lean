import Mathlib.Data.Int.ModEq
import Monkey.Proofs.Values.Literal

/-!
# Integer Arithmetic

What formulas of integers come to.

Every operator on integers wraps by itself. As long as nothing is divided this
cannot be told from wrapping once, at the end: what was lost on the way is a
multiple of two to the power of 64, and sums, differences, products and
negation keep it one. So the result is the word of the exact integer, which may
be of any size (`Formula.value_of_quotientFree`).

A quotient is different. It is that of the two words, cut off toward zero, and
not the word of the exact quotient. A formula with quotients therefore has a
value that is exact between its quotients only. One such quotient is too large
for a word, that of the smallest integer and minus one, and like everything
else it wraps.

A formula has no value if it divides by zero. A divisor is zero if its word is,
so two to the power of 64 is, and it is asked for only where evaluation gets
to: if the left operand has no value then the right one is not looked at. No
other error is possible.

## Main definitions

* `Operator`, `Formula`: Formulas of integers.
* `Formula.exact`: What a formula is over the integers.
* `Formula.value`: What a formula is if quotients are those of words.
* `Formula.Reaches`: The formulas inside that evaluation gets to.

## Theorems

* `toInt_modEq_iff`: The word of an integer.
* `Operator.arithmetic_of_apply`, `Operator.arithmetic_of_apply_none`: One
  operator.
* `Formula.eval_eq`: A formula.
* `Formula.value_eq_none_iff`: Division by zero.
* `integer_arithmetic`: What formulas of integers come to.
-/

namespace Monkey

/-- Among all words, the one of an integer is the only one that differs from it
    by a multiple of two to the power of 64. -/
theorem toInt_modEq_iff {w : Int64} {x : Int} :
    w.toInt ≡ x [ZMOD 2 ^ 64] ↔ w = Int64.ofInt x := by
  rw [eq_comm, Int64.ofInt_eq_iff_bmod_eq_toInt]
  constructor
  · intro h
    have hbmod : (w.toInt % (2 ^ 64 : Nat)).bmod (2 ^ 64) = (x % (2 ^ 64 : Nat)).bmod (2 ^ 64) :=
      congrArg (fun r : Int => r.bmod (2 ^ 64)) h
    rw [Int.emod_bmod, Int.emod_bmod] at hbmod
    exact hbmod.symm.trans (Int64.toInt_bmod_size w)
  · intro h
    rw [← h]
    exact Int.bmod_emod

/-- An operator of integer arithmetic. -/
inductive Operator where
  | sum
  | difference
  | product
  | quotient
  deriving DecidableEq

/-- A formula of integers. Any word may stand in it, negative ones too. -/
inductive Formula where
  | int (n : Int64)
  | neg (f : Formula)
  | op (o : Operator) (left right : Formula)

namespace Operator

/-- How an operator is written. -/
def kind : Operator → Kind
  | .sum => .plus
  | .difference => .minus
  | .product => .star
  | .quotient => .slash

/-- An operator on integers of any size. -/
def exact : Operator → Int → Int → Int
  | .sum, x, y => x + y
  | .difference, x, y => x - y
  | .product, x, y => x * y
  | .quotient, x, y => x.tdiv y

/-- An operator on integers, except that a quotient is that of their words. There
    is none if the word of the divisor is zero. -/
def apply (o : Operator) (x y : Int) : Option Int :=
  if o = .quotient then
    if Int64.ofInt y = 0 then none
    else some (Operator.quotient.exact (Int64.ofInt x).toInt (Int64.ofInt y).toInt)
  else some (o.exact x y)

theorem apply_of_ne {o : Operator} (h : o ≠ .quotient) (x y : Int) :
    o.apply x y = some (o.exact x y) :=
  if_neg h

theorem apply_eq_none_iff {o : Operator} {x y : Int} :
    o.apply x y = none ↔ o = .quotient ∧ Int64.ofInt y = 0 := by
  unfold apply
  split
  · split <;> simp [*]
  · simp [*]

variable {o : Operator} {x y z : Int}

/-- An operator between words gives the word of what it gives between
    integers. -/
theorem arithmetic_of_apply (h : o.apply x y = some z) :
    Eval.arithmetic o.kind (Int64.ofInt x) (Int64.ofInt y) = Eval.newInt (Int64.ofInt z) := by
  cases o with
  | sum => cases h; exact congrArg Eval.newInt (Int64.ofInt_add x y).symm
  | difference => cases h; exact congrArg Eval.newInt (Int64.ofInt_sub x y).symm
  | product => cases h; exact congrArg Eval.newInt (Int64.ofInt_mul x y).symm
  | quotient =>
      have hne : Int64.ofInt y ≠ 0 := fun hzero => by
        rw [apply_eq_none_iff.mpr ⟨rfl, hzero⟩] at h
        cases h
      have hz : (Int64.ofInt x).toInt.tdiv (Int64.ofInt y).toInt = z := by
        simpa only [apply, if_pos, if_neg hne, Option.some_inj, exact] using h
      -- The quotient may be too large, and then both sides wrap it.
      have hword : Int64.ofInt z = Int64.ofInt x / Int64.ofInt y := by
        rw [Int64.ofInt_eq_iff_bmod_eq_toInt, Int64.toInt_div, hz]
      rw [hword]
      exact if_neg hne

theorem arithmetic_of_apply_none (h : o.apply x y = none) :
    Eval.arithmetic o.kind (Int64.ofInt x) (Int64.ofInt y) = Eval.newError .divisionByZero := by
  rcases apply_eq_none_iff.mp h with ⟨rfl, hzero⟩
  exact if_pos hzero

end Operator

namespace Formula

/-- A formula as an expression. -/
def expr : Formula → Expr
  | .int n => .int n
  | .neg f => .unary .minus f.expr
  | .op o f g => .binary o.kind f.expr g.expr

/-- Nothing is divided. -/
def quotientFree : Formula → Bool
  | .int _ => true
  | .neg f => f.quotientFree
  | .op o f g => o != .quotient && f.quotientFree && g.quotientFree

/-- What a formula is over the integers, where nothing wraps. -/
def exact : Formula → Int
  | .int n => n.toInt
  | .neg f => -f.exact
  | .op o f g => o.exact f.exact g.exact

/-- What a formula is if each of its quotients is that of two words. Everything
    else is exact. It is nothing if a divisor is zero. -/
def value : Formula → Option Int
  | .int n => some n.toInt
  | .neg f => f.value.map fun x => -x
  | .op o f g => f.value.bind fun x => g.value.bind (o.apply x)

/-- From left to right, evaluation gets to a formula inside of another one. It
    does not get to the right operand if the left one has no value. -/
inductive Reaches : Formula → Formula → Prop where
  | here (f : Formula) : Reaches f f
  | operand {f h : Formula} (hinside : Reaches f h) : Reaches (.neg f) h
  | left {o : Operator} {f g h : Formula} (hinside : Reaches f h) : Reaches (.op o f g) h
  | right {o : Operator} {f g h : Formula} {x : Int} (hleft : f.value = some x)
    (hinside : Reaches g h) : Reaches (.op o f g) h

/-- Without quotients, the value is exact throughout. -/
theorem value_of_quotientFree {f : Formula} (h : f.quotientFree = true) :
    f.value = some f.exact := by
  induction f with
  | int n => rfl
  | neg f ih => rw [value, ih h]; rfl
  | op o f g ihf ihg =>
      simp only [quotientFree, Bool.and_eq_true, bne_iff_ne] at h
      rcases h with ⟨⟨ho, hf⟩, hg⟩
      rw [value, ihf hf, ihg hg]
      exact Operator.apply_of_ne ho f.exact g.exact

/-- A formula has no value if one has none that evaluation gets to. -/
theorem Reaches.value_eq_none {f g : Formula} (h : f.Reaches g) (hg : g.value = none) :
    f.value = none := by
  induction h with
  | here f => exact hg
  | operand _ ih => rw [value, ih hg]; rfl
  | left _ ih => rw [value, ih hg]; rfl
  | right hleft _ ih => rw [value, hleft, ih hg]; rfl

/-- A formula has no value if and only if evaluation gets to a quotient with a
    divisor whose word is zero. -/
theorem value_eq_none_iff {f : Formula} : f.value = none ↔
    ∃ g h x y, f.Reaches (.op .quotient g h) ∧ g.value = some x ∧ h.value = some y ∧
      Int64.ofInt y = 0 := by
  constructor
  · intro hnone
    induction f with
    | int n => cases hnone
    | neg f ih =>
        rcases ih (Option.map_eq_none_iff.mp hnone) with ⟨g, h, x, y, hreach, hrest⟩
        exact ⟨g, h, x, y, .operand hreach, hrest⟩
    | op o f g ihf ihg =>
        -- It is the first one without a value that counts.
        cases hf : f.value with
        | none =>
            rcases ihf hf with ⟨g', h, x, y, hreach, hrest⟩
            exact ⟨g', h, x, y, .left hreach, hrest⟩
        | some x =>
            cases hg : g.value with
            | none =>
                rcases ihg hg with ⟨g', h, x', y, hreach, hrest⟩
                exact ⟨g', h, x', y, .right hf hreach, hrest⟩
            | some y =>
                rw [value, hf, hg] at hnone
                rcases Operator.apply_eq_none_iff.mp hnone with ⟨rfl, hzero⟩
                exact ⟨f, g, x, y, .here _, hf, hg, hzero⟩
  · rintro ⟨g, h, x, y, hreach, hg, hh, hzero⟩
    refine hreach.value_eq_none ?_
    rw [value, hg, hh]
    exact Operator.apply_eq_none_iff.mpr ⟨rfl, hzero⟩

/-- What a formula comes to as an object: the word of its value, or an error. -/
def result (f : Formula) (id : ObjectId) : Value :=
  f.value.elim (.error id .divisionByZero) fun x => .int id (Int64.ofInt x)

/-- The result is an integer or an error. -/
theorem result_eq (f : Formula) (id : ObjectId) :
    f.value = none ∧ f.result id = .error id .divisionByZero ∨
      ∃ x, f.value = some x ∧ f.result id = .int id (Int64.ofInt x) := by
  unfold result
  cases f.value with
  | none => exact .inl ⟨rfl, rfl⟩
  | some x => exact .inr ⟨x, rfl, rfl⟩

/-- A formula comes to its value, and takes some numbers of objects. -/
theorem eval_eq (run : BodyRunner) (f : Formula) (s : Store) :
    ∃ id next, f.expr.eval run s = some (f.result id, { s with nextId := next }) := by
  induction f generalizing s with
  | int n =>
      refine ⟨s.nextId, s.nextId + 1, ?_⟩
      rw [result, value, Option.elim_some, Int64.ofInt_toInt]
      rfl
  | neg f ih =>
      rcases ih s with ⟨id, next, heval⟩
      rw [expr, Expr.eval]
      rcases f.result_eq id with ⟨hf, hresult⟩ | ⟨x, hf, hresult⟩
      · rw [hresult] at heval
        refine ⟨id, next, (Eval.unlessStopped_stopped heval rfl _).trans ?_⟩
        rw [result, value, hf]
        rfl
      · rw [hresult] at heval
        refine ⟨next, next + 1, (Eval.unlessStopped_eq heval rfl _).trans ?_⟩
        rw [result, value, hf, Option.map_some, Option.elim_some, Int64.ofInt_neg]
        rfl
  | op o f g ihf ihg =>
      rcases ihf s with ⟨id, next, heval⟩
      rw [expr, Expr.eval]
      rcases f.result_eq id with ⟨hf, hresult⟩ | ⟨x, hf, hresult⟩
      · rw [hresult] at heval
        refine ⟨id, next, (Eval.unlessStopped_stopped heval rfl _).trans ?_⟩
        rw [result, value, hf]
        rfl
      · rw [hresult] at heval
        rw [Eval.unlessStopped_eq heval rfl]
        rcases ihg { s with nextId := next } with ⟨id', next', heval'⟩
        rcases g.result_eq id' with ⟨hg, hresult'⟩ | ⟨y, hg, hresult'⟩
        · rw [hresult'] at heval'
          refine ⟨id', next', (Eval.unlessStopped_stopped heval' rfl _).trans ?_⟩
          rw [result, value, hf, hg]
          rfl
        · rw [hresult'] at heval'
          refine ⟨next', next' + 1, (Eval.unlessStopped_eq heval' rfl _).trans ?_⟩
          rw [result, value, hf, hg, Option.bind_some, Option.bind_some]
          change Eval.arithmetic _ _ _ _ = _
          cases happly : o.apply x y with
          | none => rw [Operator.arithmetic_of_apply_none happly]; rfl
          | some z => rw [Operator.arithmetic_of_apply happly]; rfl

end Formula

/-- What a formula of integers comes to in any store. Without quotients it is the
    only word that differs from the exact integer by a multiple of two to the power
    of 64. With quotients it is the only word that differs so from the value of
    the formula, or the error that a divisor is zero. It is the error if and only
    if evaluation, which goes from left to right, gets to a quotient both operands
    of which have values, and the word of the second one is zero. Nothing else is
    possible, and all that is left behind is that numbers of objects were taken. -/
theorem integer_arithmetic (run : BodyRunner) (s : Store) (f : Formula) :
    (f.quotientFree = true → ∃ id w next,
      f.expr.eval run s = some (.int id w, { s with nextId := next }) ∧
        ∀ v : Int64, v.toInt ≡ f.exact [ZMOD 2 ^ 64] ↔ v = w) ∧
    (∀ x, f.value = some x → ∃ id w next,
      f.expr.eval run s = some (.int id w, { s with nextId := next }) ∧
        ∀ v : Int64, v.toInt ≡ x [ZMOD 2 ^ 64] ↔ v = w) ∧
    ((∃ id t, f.expr.eval run s = some (.error id .divisionByZero, t)) ↔
      ∃ g h x y, f.Reaches (.op .quotient g h) ∧ g.value = some x ∧ h.value = some y ∧
        Int64.ofInt y = 0) ∧
    ∃ id next, (∃ w, f.expr.eval run s = some (.int id w, { s with nextId := next })) ∨
      f.expr.eval run s = some (.error id .divisionByZero, { s with nextId := next }) := by
  rcases f.eval_eq run s with ⟨id, next, heval⟩
  have hvalue : ∀ x, f.value = some x → ∃ id w next,
      f.expr.eval run s = some (.int id w, { s with nextId := next }) ∧
        ∀ v : Int64, v.toInt ≡ x [ZMOD 2 ^ 64] ↔ v = w := by
    intro x hx
    refine ⟨id, Int64.ofInt x, next, ?_, fun v => toInt_modEq_iff⟩
    rw [heval, Formula.result, hx, Option.elim_some]
  refine ⟨fun h => hvalue _ (Formula.value_of_quotientFree h), hvalue, ?_, id, next, ?_⟩
  · rw [← Formula.value_eq_none_iff]
    rcases f.result_eq id with ⟨hf, hresult⟩ | ⟨x, hf, hresult⟩
    · exact ⟨fun _ => hf, fun _ => ⟨id, _, hresult ▸ heval⟩⟩
    · refine ⟨fun ⟨i, t, herror⟩ => ?_, fun hnone => absurd (hf.symm.trans hnone) nofun⟩
      rw [hresult, herror] at heval
      cases heval
  · rcases f.result_eq id with ⟨-, hresult⟩ | ⟨x, -, hresult⟩
    · exact .inr (hresult ▸ heval)
    · exact .inl ⟨_, hresult ▸ heval⟩

/-- The square of the largest integer less the smallest one. -/
def largeSum : Formula :=
  .op .difference (.op .product (.int .maxValue) (.int .maxValue)) (.int .minValue)

/-- Two more than the quotient that is too large. -/
def largeQuotient : Formula :=
  .op .sum (.op .quotient (.int .minValue) (.int (-1))) (.int 2)

/-- A quotient by two to the power of 64, in front of one by zero. -/
def vanishingDivisor : Formula :=
  .op .product
    (.op .quotient (.int 1) (.op .product (.int 0x100000000) (.int 0x100000000)))
    (.op .quotient (.int 0) (.int 0))

/-- The first formula wraps to one more than the smallest integer, the second one
    to two more, and the third one has a divisor that wraps to zero. -/
theorem integer_arithmetic_large :
    largeSum.exact = 2 ^ 126 - 2 ^ 63 + 1 ∧
    (∃ id next, largeSum.expr.eval (Eval.body 0) .empty
      = some (.int id (.minValue + 1), { Store.empty with nextId := next })) ∧
    (∃ id next, largeQuotient.expr.eval (Eval.body 0) .empty
      = some (.int id (.minValue + 2), { Store.empty with nextId := next })) ∧
    ∃ id t, vanishingDivisor.expr.eval (Eval.body 0) .empty
      = some (.error id .divisionByZero, t) := by
  refine ⟨by decide, ?_, ?_, ?_⟩
  · rcases (integer_arithmetic (Eval.body 0) .empty largeSum).1 rfl with ⟨id, w, next, heval, hw⟩
    obtain rfl := (hw (.minValue + 1)).mp (by decide)
    exact ⟨id, next, heval⟩
  · rcases (integer_arithmetic (Eval.body 0) .empty largeQuotient).2.1 (2 ^ 63 + 2) (by decide)
      with ⟨id, w, next, heval, hw⟩
    obtain rfl := (hw (.minValue + 2)).mp (by decide)
    exact ⟨id, next, heval⟩
  · refine (integer_arithmetic (Eval.body 0) .empty vanishingDivisor).2.2.1.mpr ?_
    exact ⟨_, _, 1, 2 ^ 64, .left (.here _), by decide, by decide, by decide⟩

end Monkey
