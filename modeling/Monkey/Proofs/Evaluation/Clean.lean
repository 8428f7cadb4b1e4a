import Monkey.Proofs.Evaluation.Bindings
import Monkey.Proofs.Evaluation.Contents

/-!
# Clean Values and Stores

Values that take part in a program, as opposed to those that control it.

A returned value and an error travel as values do, but they must not be kept:
a name that was bound to an error would stop whoever looks it up. A value is
clean if it is none of the two and holds none of them, however deeply arrays
and maps are nested. A store is clean if all its names are bound to clean
values.

An operation that is given clean values yields a clean one or a new error. It
may take a value out of an array or a map, and this is where the elements have
to be clean as well.

## Main definitions

* `Value.Clean`: Neither a returned value nor an error, within or without.
* `Store.Clean`: All names are bound to clean values.
* `Eval.Answers`: Yields a clean value or an error, and the store stays clean.

## Theorems

* `Value.Clean.stops`: A clean value does not stop.
* `Value.Clean.inside`: What is inside of a clean value is clean.
* `Store.Clean.set`, `Store.Clean.addScope`, `Store.Clean.calling`: Bindings of
  clean values, and new scopes.
* `Eval.Gives.clean`, `Eval.Trying.answers`: Operations.
* `Builtin.apply_clean`: What a builtin yields is clean.
-/

namespace Monkey

/-- Neither a returned value nor an error, and without one inside. -/
inductive Value.Clean : Value → Prop where
  | nullAt (id : ObjectId) : Clean (.nullAt id)
  | boolAt (id : ObjectId) (b : Bool) : Clean (.boolAt id b)
  | int (id : ObjectId) (n : Int64) : Clean (.int id n)
  | str (id : ObjectId) (contents : String) : Clean (.str id contents)
  | array (id : ObjectId) {elements : List Value} (h : ∀ v ∈ elements, v.Clean) :
    Clean (.array id elements)
  | map (id : ObjectId) {slots : List (Slot Value)} (hkeys : ∀ slot ∈ slots, slot.key.Clean)
    (hvalues : ∀ slot ∈ slots, slot.value.Clean) : Clean (.map id slots)
  | fn (id : ObjectId) (params : List String) (body : Block) (scope : ScopeId) :
    Clean (.fn id params body scope)
  | builtin (id : ObjectId) (b : Builtin) : Clean (.builtin id b)

theorem Value.Clean.null : Value.null.Clean :=
  .nullAt _

theorem Value.Clean.bool (b : Bool) : (Value.bool b).Clean :=
  .boolAt _ b

theorem Value.Clean.stops {v : Value} (h : v.Clean) : v.stops = false := by
  cases h <;> rfl

/-- What is inside of a clean value is clean. -/
theorem Value.Clean.inside {u v : Value} (h : v.Clean) (hu : u.Inside v) : u.Clean := by
  induction hu with
  | refl => exact h
  | element he _ ih =>
      cases h with
      | array _ helements => exact ih (helements _ he)
  | key hslot _ ih =>
      cases h with
      | map _ hkeys _ => exact ih (hkeys _ hslot)
  | value hslot _ ih =>
      cases h with
      | map _ _ hvalues => exact ih (hvalues _ hslot)
  | inner _ _ => cases h

/-- Every name is bound to a clean value. -/
def Store.Clean (store : Store) : Prop :=
  ∀ (i : ScopeId) (scope : Scope), store.scopes[i]? = some scope →
    ∀ b ∈ scope.bindings, b.2.Clean

namespace Store

variable {s : Store}

theorem clean_iff : s.Clean ↔ ∀ v, s.Binds v → v.Clean := by
  constructor
  · rintro h v ⟨i, scope, name, hscope, hmem⟩
    exact h i scope hscope (name, v) hmem
  · exact fun h i scope hscope b hb => h b.2 ⟨i, scope, b.1, hscope, hb⟩

theorem Clean.of_eq {s' : Store} (h : s.Clean) (hscopes : s'.scopes = s.scopes) : s'.Clean :=
  clean_iff.mpr fun v hv => clean_iff.mp h v (hv.of_eq hscopes)

/-- A store stays clean if a clean value is bound. -/
theorem Clean.set (h : s.Clean) (scope : ScopeId) (name : String) {v : Value} (hv : v.Clean) :
    (s.set scope name v).Clean := by
  refine clean_iff.mpr fun w hw => ?_
  rcases hw.of_set with rfl | hold
  · exact hv
  · exact clean_iff.mp h w hold

theorem clean_empty : Store.empty.Clean :=
  clean_iff.mpr fun _ hv => absurd hv not_binds_empty

/-- A new scope binds nothing. -/
theorem Clean.addScope (h : s.Clean) (outer : Option ScopeId) : (s.addScope outer).2.Clean :=
  clean_iff.mpr fun v hv => clean_iff.mp h v hv.of_addScope

/-- A body starts in a clean store if the arguments are clean. -/
theorem Clean.calling (h : s.Clean) (outer : ScopeId) (params : List String) {args : List Value}
    (hargs : ∀ v ∈ args, v.Clean) : (s.calling outer (params.zip args)).Clean := by
  refine clean_iff.mpr fun v hv => ?_
  rcases hv.of_calling with hmem | hold
  · exact hargs v hmem
  · exact clean_iff.mp h v hold

end Store

namespace Eval

variable {s : Store}

/-- Yields a clean value or an error, and leaves a clean store behind. -/
def Answers (s : Store) (m : Eval Value) : Prop :=
  ∀ v s', m s = some (v, s') → s'.Clean ∧ (v.Clean ∨ v.isError = true)

/-- A new object is clean if it is clean with any number. -/
theorem answers_new (hs : s.Clean) {f : ObjectId → Value}
    (hf : ∀ id, (f id).Clean ∨ (f id).isError = true) :
    Answers s (newId >>= fun id => pure (f id)) := by
  intro v s' h
  rcases Prod.mk.inj (Option.some.inj h) with ⟨rfl, rfl⟩
  exact ⟨hs.of_eq rfl, hf s.nextId⟩

theorem answers_get {f : Store → Eval Value} (h : Answers s (f s)) : Answers s (get >>= f) :=
  h

/-- An operation that is given clean values gives a clean one: what it hands on
    was bound or found in what it was given, and what it makes holds nothing
    else. -/
theorem Gives.clean {given : List Value} {v : Value} {s' : Store} (h : Gives s given v s')
    (hs : s.Clean) (hgiven : ∀ g ∈ given, g.Clean) : s'.Clean ∧ v.Clean := by
  cases h with
  | null out => exact ⟨hs.of_eq rfl, .null⟩
  | bool b => exact ⟨hs, .bool b⟩
  | bound hget => exact ⟨hs, Store.clean_iff.mp hs v (Store.binds_of_get? hget)⟩
  | found hg hin => exact ⟨hs, (hgiven _ hg).inside hin⟩
  | made _ hkind hheld =>
      refine ⟨hs.of_eq rfl, ?_⟩
      have hparts : ∀ u : Value, u.Inside v → u ≠ v → u.Clean := by
        intro u hu hne
        rcases hheld u hu with heq | ⟨g, hg, hin⟩
        · exact absurd heq hne
        · exact (hgiven g hg).inside hin
      cases v with
      | nullAt id => exact .nullAt id
      | boolAt id b => exact .boolAt id b
      | int id n => exact .int id n
      | str id contents => exact .str id contents
      | fn id params body scope => exact .fn id params body scope
      | builtin id b => exact .builtin id b
      | returned _ _ | error _ _ => cases hkind.2.2
      | array id elements =>
          exact .array id fun e he => hparts e (.element he (.refl e)) (Value.ne_array he)
      | map id slots =>
          exact .map id
            (fun slot hslot => hparts slot.key (.key hslot (.refl _)) (Value.key_ne_map hslot))
            fun slot hslot => hparts slot.value (.value hslot (.refl _)) (Value.value_ne_map hslot)

theorem Trying.answers {given : List Value} {m : Eval Value} (h : Trying given m) (hs : s.Clean)
    (hgiven : ∀ g ∈ given, g.Clean) : Answers s m := by
  intro v s' hresult
  rcases h s v s' hresult with hgives | ⟨cause, herror⟩
  · exact (hgives.clean hs hgiven).imp_right .inl
  · rcases Prod.mk.inj (Option.some.inj herror) with ⟨rfl, rfl⟩
    exact ⟨hs.of_eq rfl, .inr rfl⟩

/-- An operation that hands on nothing that it is given. -/
theorem Trying.answers_alone {m : Eval Value} (h : Trying [] m) (hs : s.Clean) : Answers s m :=
  h.answers hs fun _ hg => absurd hg List.not_mem_nil

theorem answers_index (hs : s.Clean) {v : Value} (hv : v.Clean) (w : Value) :
    Answers s (index v w) :=
  (trying_index v w).answers hs fun _ hg => List.mem_singleton.mp hg ▸ hv

end Eval

/-- A builtin that is given clean values yields a clean value, or it refuses them
    and leaves the store as it was. -/
theorem Builtin.apply_clean {s s' : Store} (hs : s.Clean) (b : Builtin) {args : List Value}
    (hargs : ∀ v ∈ args, v.Clean) {answer : Answer} (h : b.apply args s = some (answer, s')) :
    s'.Clean ∧ ∀ v, answer = .ok v → v.Clean := by
  have hgives := giving_apply b args s answer s' h
  cases answer with
  | ok v =>
      rcases hgives.clean hs hargs with ⟨hs', hv⟩
      exact ⟨hs', fun w hw => Except.ok.inj hw ▸ hv⟩
  | error cause =>
      obtain rfl : s' = s := hgives
      exact ⟨hs, nofun⟩

end Monkey
