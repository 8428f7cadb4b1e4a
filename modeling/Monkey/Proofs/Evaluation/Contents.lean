import Monkey.Proofs.Evaluation.Operations
import Monkey.Proofs.Values.Inside

/-!
# Where Values Come From

An operation makes at most one object and otherwise hands on what it is given.

Arrays, maps and wrappings hold other values, and `Value.Inside` says that a
value is found in another one, at whatever depth. Every operation that neither
runs the body of a function nor makes one then does one of a few things, which
`Eval.Gives` lists. It yields the shared null, a shared truth value, what a name
is bound to, or something that is found inside of what it was given; or it makes
an object, which is no other null or truth value, and inside of which there is
nothing but itself and what was given. An operation that is tried on the wrong
values makes an error instead.

Whatever is true of all values that are found inside of others is therefore
kept by all operations as soon as it is kept by these few things. No invariant
of values has to look at operators and builtins again.

## Main definitions

* `ValueType.isShared`: The types of the shared objects.
* `Eval.Gives`: What an operation does with the values it is given.
* `Eval.Giving`, `Eval.Trying`: An operation that does so, or else makes an
  error.

## Theorems

* `Eval.ident_of_some`, `Eval.ident_of_builtin`: What a name stands for.
* `Eval.trying_ident`, `Eval.trying_binary` and the like: Operations.
* `Builtin.giving_apply`: Builtins.
* `Eval.trying_call`: Calls that run no body.
-/

namespace Monkey

/-- Whether the objects of a type are there from the beginning. -/
def ValueType.isShared : ValueType → Bool
  | null | boolean => true
  | _ => false

namespace Eval

variable {s s' : Store} {given : List Value} {v : Value}

/-- What an operation does with the values it is given. -/
inductive Gives (s : Store) (given : List Value) : Value → Store → Prop where
  /-- It may have printed something, and yields the shared null. -/
  | null (out : String) : Gives s given .null { s with output := out }
  /-- It yields a shared truth value. -/
  | bool (b : Bool) : Gives s given (.bool b) s
  /-- It yields what a name is bound to. -/
  | bound {name : String} {v : Value} (h : s.get? s.current name = some v) : Gives s given v s
  /-- It yields something that was given. -/
  | found {g v : Value} (hg : g ∈ given) (h : v.Inside g) : Gives s given v s
  /-- It makes an object that is no function, not another one of what is shared,
      does not stop, and holds what was given. -/
  | made {v : Value} (hid : v.number = s.nextId)
    (hkind : v.type ≠ .function ∧ v.type.isShared = false ∧ v.stops = false)
    (hinside : ∀ u, u.Inside v → u = v ∨ ∃ g ∈ given, u.Inside g) :
    Gives s given v { s with nextId := s.nextId + 1 }

/-- An operation that does nothing else with what it is given. -/
def Giving (given : List Value) (m : Eval Value) : Prop :=
  ∀ s v s', m s = some (v, s') → Gives s given v s'

/-- An operation that does so, or makes an error. -/
def Trying (given : List Value) (m : Eval Value) : Prop :=
  ∀ s v s', m s = some (v, s') → Gives s given v s' ∨ ∃ cause, newError cause s = some (v, s')

theorem Giving.trying {m : Eval Value} (h : Giving given m) : Trying given m :=
  fun s v s' hresult => .inl (h s v s' hresult)

theorem trying_newError (cause : RuntimeError) : Trying given (newError cause) :=
  fun _ _ _ h => .inr ⟨cause, h⟩

theorem giving_null : Giving given (pure .null) := by
  intro s v s' h
  rcases Prod.mk.inj (Option.some.inj h) with ⟨rfl, rfl⟩
  exact .null s.output

theorem giving_bool (b : Bool) : Giving given (pure (.bool b)) := by
  intro s v s' h
  rcases Prod.mk.inj (Option.some.inj h) with ⟨rfl, rfl⟩
  exact .bool b

theorem giving_found {g : Value} (hg : g ∈ given) (h : v.Inside g) : Giving given (pure v) := by
  intro s v' s' hresult
  rcases Prod.mk.inj (Option.some.inj hresult) with ⟨rfl, rfl⟩
  exact .found hg h

/-- A new object, whatever its number, that holds what was given. -/
theorem giving_new {f : ObjectId → Value} (hid : ∀ id, (f id).number = id)
    (hkind : ∀ id, (f id).type ≠ .function ∧ (f id).type.isShared = false ∧ (f id).stops = false)
    (hinside : ∀ id u, u.Inside (f id) → u = f id ∨ ∃ g ∈ given, u.Inside g) :
    Giving given (newId >>= fun id => pure (f id)) := by
  intro s v s' h
  rcases Prod.mk.inj (Option.some.inj h) with ⟨rfl, rfl⟩
  exact .made (hid _) (hkind _) (hinside _)

theorem giving_newInt (n : Int64) : Giving given (newInt n) :=
  giving_new (fun _ => rfl) (fun _ => ⟨nofun, rfl, rfl⟩) fun _ _ hu => by cases hu; exact .inl rfl

theorem giving_newStr (contents : String) : Giving given (newStr contents) :=
  giving_new (fun _ => rfl) (fun _ => ⟨nofun, rfl, rfl⟩) fun _ _ hu => by cases hu; exact .inl rfl

theorem giving_newBuiltin (b : Builtin) : Giving given (newBuiltin b) :=
  giving_new (fun _ => rfl) (fun _ => ⟨nofun, rfl, rfl⟩) fun _ _ hu => by cases hu; exact .inl rfl

/-- An array holds its elements, each of which has to be found in what was
    given. -/
theorem giving_newArray {elements : List Value}
    (h : ∀ e ∈ elements, ∃ g ∈ given, e.Inside g) : Giving given (newArray elements) := by
  refine giving_new (fun _ => rfl) (fun _ => ⟨nofun, rfl, rfl⟩) fun id u hu => ?_
  cases hu with
  | refl => exact .inl rfl
  | element he hu =>
      rcases h _ he with ⟨g, hg, hin⟩
      exact .inr ⟨g, hg, hu.trans hin⟩

theorem giving_newMap {slots : List (Slot Value)}
    (hkeys : ∀ slot ∈ slots, slot.key ∈ given) (hvalues : ∀ slot ∈ slots, slot.value ∈ given) :
    Giving given (newMap slots) := by
  refine giving_new (fun _ => rfl) (fun _ => ⟨nofun, rfl, rfl⟩) fun id u hu => ?_
  cases hu with
  | refl => exact .inl rfl
  | key hslot hu => exact .inr ⟨_, hkeys _ hslot, hu⟩
  | value hslot hu => exact .inr ⟨_, hvalues _ hslot, hu⟩

section

variable {name : String}

theorem get_bind {α : Type} (f : Store → Eval α) (s : Store) : (get >>= f) s = f s s :=
  rfl

theorem ident_of_some (h : s.get? s.current name = some v) :
    ident name s = some (v, s) := by
  rw [ident, get_bind]
  simp only [h]
  rfl

theorem ident_of_builtin {b : Builtin} (h : s.get? s.current name = none)
    (hb : Builtin.ofName? name = some b) : ident name s = newBuiltin b s := by
  rw [ident, get_bind]
  simp only [h, hb]

theorem ident_of_unknown (h : s.get? s.current name = none) (hb : Builtin.ofName? name = none) :
    ident name s = newError (.notFound name) s := by
  rw [ident, get_bind]
  simp only [h, hb]

end

theorem trying_ident (name : String) : Trying given (ident name) := by
  intro s v s' h
  cases hget : s.get? s.current name with
  | some w =>
      rw [ident_of_some hget] at h
      rcases Prod.mk.inj (Option.some.inj h) with ⟨rfl, rfl⟩
      exact .inl (.bound hget)
  | none =>
      cases hname : Builtin.ofName? name with
      | some b =>
          rw [ident_of_builtin hget hname] at h
          exact .inl (giving_newBuiltin b s v s' h)
      | none =>
          rw [ident_of_unknown hget hname] at h
          exact trying_newError _ s v s' h

theorem trying_unary (op : Kind) (v : Value) : Trying given (unary op v) := by
  unfold unary
  split
  · exact (giving_bool _).trying
  · exact (giving_newInt _).trying
  · exact trying_newError _

theorem trying_arithmetic (op : Kind) (m n : Int64) : Trying given (arithmetic op m n) := by
  unfold arithmetic
  split
  · exact (giving_newInt _).trying
  · exact (giving_newInt _).trying
  · exact (giving_newInt _).trying
  · split
    · exact trying_newError _
    · exact (giving_newInt _).trying
  · exact (giving_bool _).trying
  · exact (giving_bool _).trying
  · exact (giving_bool _).trying
  · exact (giving_bool _).trying
  · exact trying_newError _

theorem trying_compare (op : Kind) (v w : Value) : Trying given (compare op v w) := by
  unfold compare
  split
  · exact (giving_bool _).trying
  · exact (giving_bool _).trying
  · split <;> exact trying_newError _

theorem trying_binary (op : Kind) (v w : Value) : Trying given (binary op v w) := by
  unfold binary
  split
  · exact trying_arithmetic op _ _
  · split
    · exact (giving_newStr _).trying
    · exact trying_compare op _ _
  · exact trying_compare op _ _

/-- What is found under an index is an element or the value of a pair. -/
theorem trying_index (v w : Value) : Trying [v] (index v w) := by
  unfold index
  split
  · rename_i id elements _ i
    unfold elementAt
    split
    · exact giving_null.trying
    · cases helement : elements[i.toInt.toNat]? with
      | none => exact giving_null.trying
      | some e =>
          have hin : e.Inside (.array id elements) :=
            .element (List.mem_of_getElem? helement) (.refl e)
          exact (giving_found List.mem_cons_self hin).trying
  · rename_i id slots
    split
    · rename_i hash _
      cases hslot : Slots.find? hash slots with
      | none => exact giving_null.trying
      | some slot =>
          have hin : slot.value.Inside (.map id slots) :=
            .value (List.mem_of_find?_eq_some hslot) (.refl slot.value)
          exact (giving_found List.mem_cons_self hin).trying
    · exact trying_newError _
  · exact trying_newError _

end Eval

namespace Builtin

open Eval

variable {given : List Value}

/-- A builtin that refuses its arguments, or does with them what operations
    do. -/
def Giving (given : List Value) (m : Eval Answer) : Prop :=
  ∀ s answer s', m s = some (answer, s') →
    match answer with
    | .ok v => Eval.Gives s given v s'
    | .error _ => s' = s

theorem giving_refuse (cause : RuntimeError) : Giving given (refuse cause) := by
  intro s answer s' h
  rcases Prod.mk.inj (Option.some.inj h) with ⟨rfl, rfl⟩
  rfl

theorem giving_yielding {m : Eval Value} (h : Eval.Giving given m) :
    Giving given (yielding m) := by
  intro s answer s' hresult
  rcases Option.bind_eq_some_iff.mp hresult with ⟨⟨v, t⟩, hm, hrest⟩
  rcases Prod.mk.inj (Option.some.inj hrest) with ⟨rfl, rfl⟩
  exact h s v t hm

theorem giving_withOne {args : List Value} {next : Value → Eval Answer}
    (h : ∀ v ∈ args, Giving args (next v)) : Giving args (withOne args next) := by
  unfold withOne
  split
  · exact h _ List.mem_cons_self
  · exact giving_refuse _

theorem giving_withElements (b : Builtin) {args : List Value} {next : List Value → Eval Answer}
    (h : ∀ id elements, .array id elements ∈ args → Giving args (next elements)) :
    Giving args (withElements b args next) := by
  refine giving_withOne fun v hv => ?_
  cases v with
  | array id elements => exact h id elements hv
  | _ => exact giving_refuse _

/-- Printing changes the output and nothing else. -/
theorem exists_printAll (vs : List Value) (s : Store) :
    ∃ out, printAll vs s = some ((), { s with output := out }) := by
  induction vs generalizing s with
  | nil => exact ⟨s.output, rfl⟩
  | cons v vs ih => exact ih { s with output := s.output ++ v.text ++ "\n" }

/-- A builtin does with its arguments what operations do. -/
theorem giving_apply (b : Builtin) (args : List Value) : Giving args (b.apply args) := by
  cases b with
  | len =>
      refine giving_withOne fun v _ => ?_
      split
      · exact giving_yielding (giving_newInt _)
      · exact giving_yielding (giving_newInt _)
      · exact giving_refuse _
  | type => exact giving_withOne fun _ _ => giving_yielding (giving_newStr _)
  | first =>
      refine giving_withElements _ fun id elements harray => ?_
      cases elements with
      | nil => exact giving_yielding giving_null
      | cons e es =>
          exact giving_yielding (giving_found harray (.element List.mem_cons_self (.refl e)))
  | last =>
      refine giving_withElements _ fun id elements harray => ?_
      cases hlast : elements.getLast? with
      | none => exact giving_yielding giving_null
      | some e =>
          have hmem : e ∈ elements := List.mem_of_getLast? hlast
          exact giving_yielding (giving_found harray (.element hmem (.refl e)))
  | rest =>
      refine giving_withElements _ fun id elements harray => ?_
      cases elements with
      | nil => exact giving_yielding giving_null
      | cons e es =>
          refine giving_yielding (giving_newArray fun f hf => ⟨_, harray, ?_⟩)
          exact .element (List.mem_cons_of_mem e hf) (.refl f)
  | push =>
      simp only [apply]
      split
      · rename_i id elements v
        refine giving_yielding (giving_newArray fun e he => ?_)
        rcases List.mem_append.mp he with he | he
        · exact ⟨_, List.mem_cons_self, .element he (.refl e)⟩
        · exact ⟨e, List.mem_cons_of_mem _ he, .refl e⟩
      · exact giving_refuse _
      · exact giving_refuse _
  | puts =>
      intro s answer s' h
      rcases exists_printAll args s with ⟨out, hprint⟩
      rcases Option.bind_eq_some_iff.mp h with ⟨⟨_, t⟩, hfirst, hrest⟩
      rw [hprint] at hfirst
      rcases Prod.mk.inj (Option.some.inj hfirst) with ⟨-, rfl⟩
      rcases Prod.mk.inj (Option.some.inj hrest) with ⟨rfl, rfl⟩
      exact .null out

end Builtin

/-- A call that runs no body does with its arguments what operations do. -/
theorem Eval.trying_call {run : BodyRunner} {f : Value} {args : List Value}
    (h : ∀ id params body outer, f = .fn id params body outer → args.length ≠ params.length) :
    Trying args (call run f args) := by
  cases f with
  | fn id params body outer =>
      rw [call_fn_of_length run id body outer (h id params body outer rfl)]
      exact trying_newError _
  | builtin id b =>
      intro s v s' hcall
      rcases Option.bind_eq_some_iff.mp hcall with ⟨⟨answer, t⟩, happly, hrest⟩
      have hanswer := Builtin.giving_apply b args s answer t happly
      cases answer with
      | ok w =>
          rcases Prod.mk.inj (Option.some.inj hrest) with ⟨rfl, rfl⟩
          exact .inl hanswer
      | error cause =>
          -- A refusal has not touched the store, and the call makes the error.
          obtain rfl : t = s := hanswer
          exact .inr ⟨cause, hrest⟩
  | _ => exact trying_newError _

end Monkey
