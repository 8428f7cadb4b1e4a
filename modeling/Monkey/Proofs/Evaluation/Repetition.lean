import Monkey.Proofs.Evaluation.Frame
import Monkey.Proofs.Evaluation.Nesting
import Monkey.Proofs.Evaluation.Objects
import Monkey.Proofs.Evaluation.Rerun

/-!
# Calls Are Repeatable

A function that is called twice does the same twice.

A call has no effect on the scopes that are there, so when it is over, the names
in the body still mean what they meant. What it leaves behind are numbers that
have been used up: the second call makes other objects and other scopes than the
first one. A program could notice that only by comparing objects, but an object
that a call makes is compared to those that there were before, or to those that
the same call makes, and in both cases the answer is the same.

So the store that the first call has left behind mirrors the one in which it was
made, and all that has to be shown is how to begin. Whatever there is in a store
has numbers below the first free ones, and these are the numbers that do not
change. The shared objects have such numbers too, since they are there from the
beginning. A store is called sound if that is so: nothing in it leads nowhere.
All stores of a session are sound, and what there is at some moment is there in
the store of that moment.

## Main definitions

* `Store.Has`: All numbers in a value are in use.
* `Store.Sound`: All numbers in a store are in use.

## Theorems

* `Rerun.mirrors_start`: A store mirrors an earlier one with the same scopes.
* `Point.Session.sound`, `Point.Session.has`: The stores of a session are sound.
* `call_repeatable`: A call can be repeated.
-/

namespace Monkey

/-- The scope that a function remembers. -/
def Value.scope? : Value → Option ScopeId
  | .fn _ _ _ scope => some scope
  | _ => none

/-- The objects that a value is made of have been made in a store, and the scopes
    that it remembers are there. -/
def Store.Has (s : Store) (v : Value) : Prop :=
  ∀ u : Value, u.Inside v → u.number < s.nextId ∧ ∀ i, u.scope? = some i → i < s.scopes.size

/-- Nothing in a store leads nowhere. -/
structure Store.Sound (s : Store) : Prop where
  /-- The shared objects are there. -/
  shared : Value.shared.length ≤ s.nextId
  /-- The current scope is there. -/
  current : s.current < s.scopes.size
  /-- So are the scopes around the scopes. -/
  outer : ∀ (i : ScopeId) (here : Scope) (outer : ScopeId), s.scopes[i]? = some here →
    here.outer = some outer → outer < s.scopes.size
  /-- Names are bound to what is there. -/
  bound : ∀ v, s.Binds v → s.Has v

namespace Value

variable {f : ObjectId → ObjectId} {g : ScopeId → ScopeId}

/-- The numbers in a value are among those that stay. -/
def Unmoved (f : ObjectId → ObjectId) (g : ScopeId → ScopeId) (v : Value) : Prop :=
  ∀ u : Value, u.Inside v → f u.number = u.number ∧ ∀ i, u.scope? = some i → g i = i

mutual

theorem renumber_eq_self : ∀ v : Value, v.Unmoved f g → v.renumber f g = v
  | .nullAt _, h => congrArg Value.nullAt (h _ (.refl _)).1
  | .boolAt _ b, h => congrArg (Value.boolAt · b) (h _ (.refl _)).1
  | .int _ n, h => congrArg (Value.int · n) (h _ (.refl _)).1
  | .str _ contents, h => congrArg (Value.str · contents) (h _ (.refl _)).1
  | .builtin _ b, h => congrArg (Value.builtin · b) (h _ (.refl _)).1
  | .error _ cause, h => congrArg (Value.error · cause) (h _ (.refl _)).1
  | .fn _ params body scope, h =>
    congrArg₂ (Value.fn · params body ·) (h _ (.refl _)).1 ((h _ (.refl _)).2 scope rfl)
  | .array id elements, h => by
    have hid : f id = id := (h _ (.refl _)).1
    rw [renumber, hid, renumberAll_eq_self elements fun v hv u hu => h u (.element hv hu)]
  | .map id slots, h => by
    have hid : f id = id := (h _ (.refl _)).1
    rw [renumber, hid, renumberSlots_eq_self slots (fun slot hslot u hu => h u (.key hslot hu))
        fun slot hslot u hu => h u (.value hslot hu)]
  | .returned id inner, h => by
    have hid : f id = id := (h _ (.refl _)).1
    rw [renumber, hid, renumber_eq_self inner fun u hu => h u (.inner hu)]

theorem renumberAll_eq_self :
    ∀ vs : List Value, (∀ v ∈ vs, v.Unmoved f g) → renumberAll f g vs = vs
  | [], _ => rfl
  | v :: vs, h => by
    rw [renumberAll, renumber_eq_self v (h v List.mem_cons_self),
      renumberAll_eq_self vs fun w hw => h w (List.mem_cons_of_mem _ hw)]

theorem renumberSlots_eq_self : ∀ slots : List (Slot Value),
    (∀ slot ∈ slots, slot.key.Unmoved f g) → (∀ slot ∈ slots, slot.value.Unmoved f g) →
      renumberSlots f g slots = slots
  | [], _, _ => rfl
  | ⟨hash, key, value⟩ :: slots, hkeys, hvalues => by
    rw [renumberSlots, renumber_eq_self key (hkeys _ List.mem_cons_self),
      renumber_eq_self value (hvalues _ List.mem_cons_self),
      renumberSlots_eq_self slots (fun slot hslot => hkeys slot (List.mem_cons_of_mem _ hslot))
        fun slot hslot => hvalues slot (List.mem_cons_of_mem _ hslot)]

end

end Value

namespace Rerun

variable {ρ : Rerun} {first second : Store}

/-- What there was at the beginning of the first time is the same the second
    time. -/
theorem value_of_has {v : Value} (h : ρ.first.Has v) : ρ.value v = v :=
  v.renumber_eq_self fun u hu =>
    ⟨move_of_lt (h u hu).1, fun i hi => move_of_lt ((h u hu).2 i hi)⟩

theorem map_value_of_has {vs : List Value} (h : ∀ v ∈ vs, ρ.first.Has v) :
    vs.map ρ.value = vs :=
  (List.map_congr_left fun v hv => value_of_has (h v hv)).trans (List.map_id vs)

theorem scopeOf_of_sound (h : ρ.first.Sound) {i : ScopeId} {here : Scope}
    (hhere : ρ.first.scopes[i]? = some here) : ρ.scopeOf here = here := by
  have hbindings : here.bindings.map ρ.binding = here.bindings := by
    refine (List.map_congr_left fun b hb => ?_).trans (List.map_id here.bindings)
    exact congrArg (Prod.mk b.1) (value_of_has (h.bound b.2 ⟨i, here, b.1, hhere, hb⟩))
  have houter : here.outer.map ρ.scope = here.outer := by
    cases hlink : here.outer with
    | none => rfl
    | some outer => exact congrArg some (move_of_lt (h.outer i here outer hhere hlink))
  rw [scopeOf, hbindings, houter]

/-- What is done in a sound store, and again in a later one. -/
def later (first second : Store) (h : first.Sound) : Rerun where
  first := first
  second := second
  shared _ hi := move_of_lt (Nat.lt_of_lt_of_le hi h.shared)

/-- A store mirrors an earlier one if no scope has been changed in between. -/
theorem mirrors_start (hsound : first.Sound) (hcurrent : second.current = first.current)
    (hids : first.nextId ≤ second.nextId) (hsize : first.scopes.size ≤ second.scopes.size)
    (hscopes : ∀ i < first.scopes.size, second.scopes[i]? = first.scopes[i]?) :
    (later first second hsound).Mirrors first second where
  objects_le := Nat.le_refl _
  objects := (move_first hids).symm
  scopes_le := Nat.le_refl _
  size := (move_first hsize).symm
  scopes i := by
    by_cases hi : i < first.scopes.size
    · -- The scope was there and is as it was.
      have hstays : (later first second hsound).scope i = i := move_of_lt hi
      rw [hstays, hscopes i hi]
      cases hhere : first.scopes[i]? with
      | none => rfl
      | some here => exact congrArg some (scopeOf_of_sound hsound hhere).symm
    · -- It is none of the scopes there were, and its counterpart has not been added either.
      have hfirst := Nat.not_lt.mp hi
      rw [Array.getElem?_eq_none hfirst]
      exact Array.getElem?_eq_none (le_move hfirst)
  current := hcurrent.trans (move_of_lt hsound.current).symm
  output := ⟨"", String.append_empty.symm, String.append_empty.symm⟩
  journal := ⟨[], rfl, rfl⟩

end Rerun

namespace Point

variable {programs : List Point} {p : Point} {t : Store} {v : Value}

/-- What there is at a moment of a session is there in the store. -/
theorem Session.has (hsession : Session programs) (hp : p.Of programs) (hv : p.Shows t v) :
    t.Has v := by
  intro u hu
  refine ⟨hsession.number_lt hp (hv.inside hu), fun i hi => ?_⟩
  rcases hsession.nested_shown hp hv with ⟨links, hnested, hfine⟩
  rw [← hnested.length]
  cases u with
  | fn id params body _ =>
      cases hi
      exact (hfine id params body i hu).1
  | _ => cases hi

/-- The stores of a session are sound. -/
theorem Session.sound (hsession : Session programs) (hp : p.Of programs) (ht : p.Moment t) :
    t.Sound := by
  refine ⟨hsession.shared_le hp ht, hsession.current_lt hp ht, fun i here outer hhere houter => ?_,
    fun v hv => hsession.has hp (ht.shows hv)⟩
  rcases hsession.nested hp ht with ⟨links, hnested⟩
  have hlink : links[i]? = some (some outer) := by
    rw [← hnested.links_eq, Store.links_getElem?, hhere, ← houter]
    rfl
  exact Nat.lt_trans (hnested.outer i outer hlink) (Array.getElem?_eq_some_iff.mp hhere).1

end Point

namespace Eval

/-- A call that is made in some store can be made in any later one with the same
    scopes, and it does the same there. -/
theorem call_again {limit : Nat} {f : Value} {args : List Value} {s s₁ t : Store} {v : Value}
    (hsound : s.Sound) (hf : s.Has f) (hargs : ∀ a ∈ args, s.Has a)
    (hst : (Rerun.later s t hsound).Mirrors s t)
    (hcall : call (body limit) f args s = some (v, s₁)) :
    ∃ t₁, call (body limit) f args t = some ((Rerun.later s t hsound).value v, t₁) ∧
      (Rerun.later s t hsound).Mirrors s₁ t₁ := by
  have hrepeats := Rerun.repeats_call (Rerun.repeats_body (Rerun.later s t hsound) limit) f args
  rcases hrepeats s t hst v s₁ hcall with ⟨t₁, hagain, hmirrors⟩
  rw [Rerun.value_of_has hf, Rerun.map_value_of_has hargs] at hagain
  exact ⟨t₁, hagain, hmirrors⟩

/-- Numbers are not given back by a call. -/
theorem call_nextId {limit : Nat} {f : Value} {args : List Value} {s s₁ : Store} {v : Value}
    (hsound : s.Sound) (hf : s.Has f) (hargs : ∀ a ∈ args, s.Has a)
    (hcall : call (body limit) f args s = some (v, s₁)) : s.nextId ≤ s₁.nextId := by
  -- A store mirrors itself, and what mirrors another one has taken as many numbers.
  have hself := Rerun.mirrors_start hsound rfl (Nat.le_refl _) (Nat.le_refl _) fun _ _ => rfl
  rcases call_again hsound hf hargs hself hcall with ⟨t₁, -, hmirrors⟩
  exact hmirrors.objects_le

end Eval

/-- A call that has ended can be made again, in the store that it has left
    behind, whatever is called and with whatever arguments. It ends again, at the
    same limit; it prints the same text and records the same events as it did the
    first time, and it yields the same error or a value of the same type that
    shows as the same. Of the store nothing is asked but that it is one: a number
    that is not in use could lead to a scope that only the first call has made.
    In a session all stores are sound, so every call in it can be repeated. -/
theorem call_repeatable :
    (∀ (limit : Nat) (s : Store) (f : Value) (args : List Value) (v : Value) (s₁ : Store),
      s.Sound → s.Has f → (∀ a ∈ args, s.Has a) →
      Eval.call (Eval.body limit) f args s = some (v, s₁) →
        ∃ v' s₂ text events, Eval.call (Eval.body limit) f args s₁ = some (v', s₂) ∧
          s₁.output = s.output ++ text ∧ s₂.output = s₁.output ++ text ∧
          s₁.journal = events ++ s.journal ∧ s₂.journal = events ++ s₁.journal ∧
          v'.type = v.type ∧ v'.text = v.text ∧ v'.code = v.code ∧
          ∀ i cause, v = .error i cause → ∃ j, v' = .error j cause) ∧
    ∀ programs, Point.Session programs → ∀ p : Point, p.Of programs →
      (∀ t, p.Moment t → t.Sound) ∧ ∀ t v, p.Shows t v → t.Has v := by
  refine ⟨fun limit s f args v s₁ hsound hf hargs hcall => ?_, fun programs hsession p hp =>
    ⟨fun t ht => hsession.sound hp ht, fun t v hv => hsession.has hp hv⟩⟩
  have hbody := Discipline.body_keeps framing_followed limit
  rcases Eval.call_untouched (fun s block => hbody s block trivial) hcall with
    ⟨hcurrent, hsize, hscopes⟩
  have hids := Eval.call_nextId hsound hf hargs hcall
  have hmirrors := Rerun.mirrors_start hsound hcurrent hids hsize hscopes
  rcases Eval.call_again hsound hf hargs hmirrors hcall with ⟨s₂, hagain, hmirrors₂⟩
  rcases hmirrors₂.output with ⟨text, houtput₁, houtput₂⟩
  rcases hmirrors₂.journal with ⟨events, hjournal₁, hjournal₂⟩
  refine ⟨_, s₂, text, events, hagain, houtput₁, houtput₂, hjournal₁, hjournal₂,
    v.type_renumber _ _, v.text_renumber _ _, v.code_renumber _ _, fun i cause hv => ?_⟩
  rw [hv]
  exact ⟨_, rfl⟩

/-- A body that compares what it has made, and gets back from a function of its
    own, with itself and with what it was given. -/
def comparingBody : Block :=
  [.bind "made" (.array [.ident "given"]),
    .bind "again" (.fn [] [.ret (.ident "made")]),
    .expr (.call (.ident "puts") [.binary .equal (.ident "made") (.call (.ident "again") [])]),
    .ret (.array [.ident "made", .binary .equal (.ident "made") (.ident "given"),
      .binary .equal (.ident "kept") (.ident "given")])]

/-- A store in which an array is bound. -/
def keepingStore : Store :=
  { Store.withRoot.2.set 0 "kept" (.array 3 []) with nextId := 5 }

theorem keepingStore_has : keepingStore.Has (.array 3 []) := by
  intro u hu
  cases hu with
  | refl => exact ⟨by decide, fun i hi => by cases hi⟩
  | element he _ => exact absurd he List.not_mem_nil

theorem keepingStore_sound : keepingStore.Sound where
  shared := by decide
  current := Nat.zero_lt_one
  outer i here outer hhere houter := by
    cases i with
    | zero =>
        cases hhere
        cases houter
    | succ i => cases hhere
  bound v hv := by
    have hset : (Store.withRoot.2.set 0 "kept" (.array 3 [])).Binds v := hv.of_eq rfl
    rcases hset.of_set with rfl | hbefore
    · exact keepingStore_has
    · exact absurd hbefore Store.not_binds_withRoot

/-- Two calls that yield arrays which are not the same, but show as the same. -/
theorem call_repeatable_comparing :
    ∃ v s₁ v' s₂,
      Eval.call (Eval.body 2) (.fn 4 ["given"] comparingBody 0) [.array 3 []] keepingStore
        = some (v, s₁) ∧
      Eval.call (Eval.body 2) (.fn 4 ["given"] comparingBody 0) [.array 3 []] s₁
        = some (v', s₂) ∧
      v.same v' = false ∧ v'.type = .array ∧ v'.code = v.code := by
  have hcalls : ((do
      let first ← Eval.call (Eval.body 2) (.fn 4 ["given"] comparingBody 0) [.array 3 []]
        keepingStore
      let second ← Eval.call (Eval.body 2) (.fn 4 ["given"] comparingBody 0) [.array 3 []]
        first.2
      return (first.1.type, first.1.same second.1)) : Option (ValueType × Bool))
        = some (.array, false) := by decide +kernel
  rcases Option.bind_eq_some_iff.mp hcalls with ⟨⟨v, s₁⟩, hfirst, hcalls⟩
  rcases Option.bind_eq_some_iff.mp hcalls with ⟨⟨w, s₂⟩, hsecond, hcalls⟩
  rcases Prod.mk.inj (Option.some.inj hcalls) with ⟨htype, hsame⟩
  have hfn : keepingStore.Has (.fn 4 ["given"] comparingBody 0) := by
    intro u hu
    cases hu
    exact ⟨by decide, fun i hi => by cases hi; exact Nat.zero_lt_one⟩
  rcases call_repeatable.1 2 keepingStore (.fn 4 ["given"] comparingBody 0) [.array 3 []] v s₁
    keepingStore_sound hfn (fun a ha => List.mem_singleton.mp ha ▸ keepingStore_has) hfirst with
    ⟨v', s₂', text, events, hagain, -, -, -, -, htype', -, hcode, -⟩
  rcases Prod.mk.inj (Option.some.inj (hsecond.symm.trans hagain)) with ⟨rfl, rfl⟩
  exact ⟨v, s₁, w, s₂, hfirst, hsecond, hsame, htype'.trans htype, hcode⟩

end Monkey
