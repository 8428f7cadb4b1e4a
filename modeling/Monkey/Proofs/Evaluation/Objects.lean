import Monkey.Proofs.Evaluation.Moments
import Monkey.Proofs.Values.Sameness

/-!
# The Objects of a Session

A number belongs to one object.

Objects are told apart by their numbers, so what the language says about
identity is true only as long as no two objects have the same one. The numbers
are given out in order and one at a time, which makes the objects of a session
a list: the object with a number is the one at that place. At the front of the
list there are the shared objects. Behind them are those that have been made,
and these are what is known here (`objects`). They grow in number, once for each
object that is made, and the length of the list is the next number that is free.

A value belongs to the list with everything that is found inside of it, so no
object is ever there in two versions. Hence two values of a session are one and
the same exactly if they are equal (`Point.Session.same_iff`). And since what is
there at some moment has a number that was given out before, a new object is
none of the values that there have been (`Point.Session.fresh`).

It is known of what has been made that it is no null and no truth value. So a
null that turns up at some moment is at the front of the list, wherever it has
come from, and there is only one at the front. The same goes for the truth
values (`Point.Session.mem_shared`).

## Main definitions

* `Value.Listed`: A value made of objects that are listed.
* `objects`: The chronicle of objects.

## Theorems

* `objects_followed`: Evaluation keeps to the chronicle.
* `Point.Session.mem_shared`: Nulls and truth values are the shared ones.
* `Point.Session.same_iff`: One and the same is the same as equal.
* `Point.Session.equals_trans`: The operator `==` is transitive.
* `Point.Session.fresh`: A new object is none that was there.
* `Point.Session.clock_le`: Numbers are given out in order.
-/

namespace Monkey

namespace Value

/-- A value made of objects that are at their places in a list: the shared ones,
    and those that have been made behind them. -/
def Listed (made : List Value) (v : Value) : Prop :=
  ∀ u : Value, u.Inside v → (shared ++ made)[u.number]? = some u

variable {made made' : List Value} {v w : Value}

theorem Listed.mono (h : v.Listed made) (hgrows : made <+: made') : v.Listed made' := by
  intro u hu
  have hlonger : shared ++ made <+: shared ++ made' := (List.prefix_append_right_inj _).mpr hgrows
  have hlt := (List.getElem?_eq_some_iff.mp (h u hu)).1
  rw [← h u hu, List.getElem?_eq_getElem hlt, hlonger.getElem hlt,
    List.getElem?_eq_getElem (Nat.lt_of_lt_of_le hlt hlonger.length_le)]

theorem Listed.lt (h : v.Listed made) : v.number < shared.length + made.length :=
  List.length_append ▸ (List.getElem?_eq_some_iff.mp (h v (.refl v))).1

theorem Listed.mem (h : v.Listed made) : v ∈ shared ∨ v ∈ made :=
  List.mem_append.mp (List.mem_of_getElem? (h v (.refl v)))

/-- Of two values made of the same objects, one is the other if they are equal. -/
theorem Listed.same_iff (hv : v.Listed made) (hw : w.Listed made) :
    v.same w = true ↔ v = w := by
  refine ⟨fun h => ?_, fun h => h ▸ same_refl v⟩
  have hat := hv v (.refl v)
  rw [Value.same_iff.mp h, hw w (.refl w)] at hat
  exact (Option.some.inj hat).symm

theorem listed_null (made : List Value) : null.Listed made := by
  intro u hu
  cases hu
  rfl

theorem listed_bool (made : List Value) (b : Bool) : (bool b).Listed made := by
  intro u hu
  cases hu
  cases b <;> rfl

end Value

/-- The objects of a store are listed, and the next number is that of the next
    one. No null and no truth value has been made. -/
structure Store.Listed (made : List Value) (s : Store) : Prop where
  length : Value.shared.length + made.length = s.nextId
  unshared : ∀ v ∈ made, v.type.isShared = false
  bound : ∀ v, s.Binds v → v.Listed made

/-- What is known of objects: all that have been made, in order. -/
def objects : Chronicle (List Value) where
  good made s := s.Listed made
  fine made v := v.Listed made
  grows made made' := made <+: made'
  allowed _ := True
  refl _ := List.prefix_rfl
  trans := List.IsPrefix.trans
  stays hgrows h := h.mono hgrows

/-- An object is made and listed. -/
theorem Store.Listed.make {w : List Value} {s : Store} {v : Value} (h : s.Listed w)
    (hid : v.number = s.nextId) (hkind : v.type.isShared = false)
    (hheld : ∀ u : Value, u.Inside v → u = v ∨ u.Listed w) :
    ∃ w', w <+: w' ∧ Store.Listed w' { s with nextId := s.nextId + 1 } ∧ v.Listed w' := by
  have hgrows : w <+: w ++ [v] := List.prefix_append w [v]
  refine ⟨w ++ [v], hgrows, ⟨?_, fun u hu => ?_, fun u hu => (h.bound u hu).mono hgrows⟩,
    fun u hu => ?_⟩
  · rw [List.length_append, List.length_singleton, ← Nat.add_assoc, h.length]
  · rcases List.mem_append.mp hu with hu | hu
    · exact h.unshared u hu
    · exact List.mem_singleton.mp hu ▸ hkind
  · -- The new object is at the end of the list, and what it holds was in the list before.
    rcases hheld u hu with rfl | hlisted
    · rw [hid, ← h.length, ← List.length_append, ← List.append_assoc, List.getElem?_concat_length]
    · exact hlisted.mono hgrows u (.refl u)

theorem Store.setAll_nextId (scope : ScopeId) (bindings : List (String × Value)) (s : Store) :
    (s.setAll scope bindings).nextId = s.nextId :=
  setAll_keeps nextId (fun _ _ _ => rfl) bindings s

/-- A call makes no object. -/
theorem Store.calling_nextId (s : Store) (outer : ScopeId) (bindings : List (String × Value)) :
    (s.calling outer bindings).nextId = s.nextId :=
  setAll_nextId s.scopes.size bindings _

/-- Evaluation keeps to the chronicle of objects. -/
theorem objects_followed : objects.Followed where
  start := ⟨[], rfl, fun _ h => absurd h List.not_mem_nil, fun _ h =>
    absurd h Store.not_binds_withRoot⟩
  printed h := { h with }
  stopped h := { h with }
  cleared h := { h with }
  null := Value.listed_null
  bool := Value.listed_bool
  inside h hu u' hu' := h u' (hu'.trans hu)
  bound h hv := h.bound _ hv
  made h hid hkind hheld := h.make hid hkind.2 hheld
  closure h _ := h.make rfl rfl fun u hu => by
    cases hu
    exact .inl rfl
  bind h hv := by
    refine ⟨h.length, h.unshared, fun u hu => ?_⟩
    rcases hu.of_set with rfl | hu
    · exact hv.1
    · exact h.bound u hu
  enters {w s id params body outer args} h _ hargs _ := by
    refine ⟨w, List.prefix_rfl, ?_, h.unshared, fun v hv => ?_⟩
    · rw [Store.calling_nextId]
      exact h.length
    · rcases hv.of_calling with hmem | hbound
      · exact (hargs v hmem).1
      · exact h.bound v hbound
  leaves _ _ h := { h with }
  part _ _ _ := trivial
  body _ _ _ _ := trivial

namespace Point

variable {programs : List Point} {p q : Point} {t t' : Store} {u v w : Value}

/-- Two values of a session are one and the same exactly if they are equal. -/
theorem Session.same_iff (hsession : Session programs) (hp : p.Of programs) (hq : q.Of programs)
    (hv : p.Shows t v) (hw : q.Shows t' w) : v.same w = true ↔ v = w := by
  rcases Chronicle.session_shows objects_followed hsession (fun _ _ => trivial) hp hq hv hw with
    ⟨known, ⟨known₁, hgrows₁, -, hlisted₁⟩, known₂, hgrows₂, -, hlisted₂⟩
  exact Value.Listed.same_iff (hlisted₁.mono hgrows₁) (hlisted₂.mono hgrows₂)

/-- Every null and every truth value that there is at some moment is a shared
    object. -/
theorem Session.mem_shared (hsession : Session programs) (hp : p.Of programs) (hv : p.Shows t v)
    (htype : v.type.isShared = true) : v ∈ Value.shared := by
  rcases Chronicle.session_shown objects_followed hsession (fun _ _ => trivial) hp hv with
    ⟨known, hgood, hlisted⟩
  -- It is in the list, but not among what has been made, where its type does not occur.
  refine hlisted.mem.resolve_right fun hmade => ?_
  rw [hgood.unshared v hmade] at htype
  cases htype

theorem Session.eq_null (hsession : Session programs) (hp : p.Of programs) (hv : p.Shows t v)
    (htype : v.type = .null) : v = .null := by
  have hmem := hsession.mem_shared hp hv (htype ▸ rfl)
  simp only [Value.shared, List.mem_cons, List.not_mem_nil, or_false] at hmem
  rcases hmem with rfl | rfl | rfl
  · rfl
  · cases htype
  · cases htype

theorem Session.eq_bool (hsession : Session programs) (hp : p.Of programs) (hv : p.Shows t v)
    (htype : v.type = .boolean) : v = .bool v.truthy := by
  have hmem := hsession.mem_shared hp hv (htype ▸ rfl)
  simp only [Value.shared, List.mem_cons, List.not_mem_nil, or_false] at hmem
  rcases hmem with rfl | rfl | rfl
  · cases htype
  · rfl
  · rfl

/-- The numbers of the shared objects are taken at all moments. -/
theorem Session.shared_le (hsession : Session programs) (hp : p.Of programs) (ht : p.Moment t) :
    Value.shared.length ≤ t.nextId := by
  rcases Chronicle.session_moment objects_followed hsession (fun _ _ => trivial) hp ht with
    ⟨known, hgood⟩
  exact hgood.length ▸ Nat.le_add_right _ _

/-- What is there at a moment has a number that was given out before. -/
theorem Session.number_lt (hsession : Session programs) (hp : p.Of programs) (hv : p.Shows t v) :
    v.number < t.nextId := by
  rcases Chronicle.session_shown objects_followed hsession (fun _ _ => trivial) hp hv with
    ⟨known, hgood, hlisted⟩
  exact hgood.length ▸ hlisted.lt

/-- An object is none of the values that there were when its number was still
    free. -/
theorem Session.fresh (hsession : Session programs) (hp : p.Of programs) (hu : p.Shows t u)
    (hbefore : t.nextId ≤ v.number) : v.same u = false := by
  refine Bool.eq_false_iff.mpr fun hsame => ?_
  -- The same object has the same number, and the number of what is there is taken.
  rw [Value.same_iff.mp hsame] at hbefore
  exact Nat.not_lt.mpr hbefore (hsession.number_lt hp hu)

/-- The operator `==` asks whether two values of a session are integers of one
    value or one and the same. -/
theorem Session.equals_iff (hsession : Session programs) (hp : p.Of programs)
    (hq : q.Of programs) (hv : p.Shows t v) (hw : q.Shows t' w) :
    v.equals w = true ↔ (∃ i j n, v = .int i n ∧ w = .int j n) ∨ v.same w = true := by
  constructor
  · intro h
    by_cases hints : ∃ i m j n, v = .int i m ∧ w = .int j n
    · rcases hints with ⟨i, m, j, n, rfl, rfl⟩
      exact .inl ⟨i, j, m, rfl, by rw [beq_iff_eq.mp h]⟩
    · rw [Value.equals_of_not_int hints] at h
      exact .inr h
  · rintro (⟨i, j, n, rfl, rfl⟩ | h)
    · exact beq_iff_eq.mpr rfl
    · -- What is the same is equal here, so integers that are the same have one value.
      obtain rfl := (hsession.same_iff hp hq hv hw).mp h
      exact v.equals_refl

/-- Anything but an integer is equal to itself alone. -/
theorem Session.equals_iff_eq (hsession : Session programs) (hp : p.Of programs)
    (hq : q.Of programs) (hv : p.Shows t v) (hw : q.Shows t' w) (htype : v.type ≠ .integer) :
    v.equals w = true ↔ v = w := by
  rw [hsession.equals_iff hp hq hv hw, hsession.same_iff hp hq hv hw]
  exact or_iff_right fun ⟨i, j, n, heq, _⟩ => htype (heq ▸ rfl)

theorem Session.equals_trans (hsession : Session programs) {r : Point} {t'' : Store} {x : Value}
    (hp : p.Of programs) (hq : q.Of programs) (hr : r.Of programs) (hv : p.Shows t v)
    (hw : q.Shows t' w) (hx : r.Shows t'' x) (h : v.equals w = true) (h' : w.equals x = true) :
    v.equals x = true := by
  rcases (hsession.equals_iff hp hq hv hw).mp h with ⟨i, j, n, rfl, rfl⟩ | hsame
  · rcases (hsession.equals_iff hq hr hw hx).mp h' with ⟨i', j', n', heq, rfl⟩ | hsame'
    · cases heq
      exact beq_iff_eq.mpr rfl
    · rw [← (hsession.same_iff hq hr hw hx).mp hsame']
      exact h
  · rw [(hsession.same_iff hp hq hv hw).mp hsame]
    exact h'

end Point

end Monkey
