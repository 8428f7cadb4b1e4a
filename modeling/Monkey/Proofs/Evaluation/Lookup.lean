import Monkey.Proofs.Evaluation.Scopes

/-!
# Lookups and Earlier Bindings

What a name stands for, told from the bindings that were made before.

A scope does not remember how it came to bind what it binds. All the same, a
lookup can be told from the history of all scopes: the way outwards is given by
the scopes that were made, and what a scope binds a name to is what the name
was last set to in it. So a name stands for what was set last in the nearest
scope in which it was ever set, no matter in which order scopes were made and
names were set, and whatever was set in other scopes in between.

Two things follow. Setting a name where it is not looked up has no effect, be
it in a scope that is not on the way outwards or behind a nearer one in which
the name was set. And scopes share the ones around them: a name that is set
there later is seen from every scope inside in which it is not hidden, those
included that were made before.

`Store.Edit` lists what may be done, and `Store.Edited` says what becomes of it
from nothing. The values are any at all, which is what makes it different from
the acts that keep a heap in order; a lookup does not look into values.

## Main definitions

* `Store.Edit`: A scope is made, or a name is set.
* `Store.Edited`: What becomes of nothing by edits.
* `Store.lastSet?`: What a name was last set to in a scope.
* `Store.Outwards`: The scopes outwards, by the edits that made them.

## Theorems

* `Store.Edited.outwards_iff`: The way outwards is that of the links.
* `Store.Edited.boundIn?_eq`: What a scope binds a name to.
* `Store.Edited.get?_eq`: What a name stands for.
* `Store.lookup_of_edits`: The same, and what changes it.
-/

namespace Monkey

namespace Store

/-- What may be done to a collection of scopes. They are numbered in the order
    in which they are made. -/
inductive Edit where
  /-- A scope is made with no scope around it. -/
  | root
  /-- A scope is made with a scope around it. -/
  | enclose (outer : ScopeId)
  /-- A name is set in a scope. -/
  | set (scope : ScopeId) (name : String) (value : Value)

namespace Edit

/-- How the scope is enclosed that an edit makes, if it makes one. -/
def link? : Edit → Option (Option ScopeId)
  | root => some none
  | enclose outer => some (some outer)
  | set .. => none

/-- What an edit sets a name to in a scope, if it does. -/
def value? (scope : ScopeId) (name : String) : Edit → Option Value
  | root => none
  | enclose _ => none
  | set i n v => if i = scope ∧ n = name then some v else none

end Edit

/-- What becomes of nothing by edits, the first of which comes first. An edit
    names scopes only that are there when it is made. -/
inductive Edited : List Edit → Store → Prop where
  | nothing : Edited [] empty
  | root {edits : List Edit} {s : Store} (h : Edited edits s) :
    Edited (edits ++ [.root]) (s.addScope none).2
  | enclose {edits : List Edit} {s : Store} {outer : ScopeId} (h : Edited edits s)
    (houter : outer < s.scopes.size) :
    Edited (edits ++ [.enclose outer]) (s.addScope (some outer)).2
  | set {edits : List Edit} {s : Store} {scope : ScopeId} (h : Edited edits s)
    (hscope : scope < s.scopes.size) (name : String) (v : Value) :
    Edited (edits ++ [.set scope name v]) (s.set scope name v)

/-- What a name was last set to in a scope, if it ever was. -/
def lastSet? (edits : List Edit) (name : String) (scope : ScopeId) : Option Value :=
  edits.reverse.findSome? (Edit.value? scope name)

/-- The scopes from a scope outwards, as they were enclosed when they were
    made. -/
inductive Outwards (edits : List Edit) : ScopeId → List ScopeId → Prop where
  | last {i : ScopeId} (h : (edits.filterMap Edit.link?)[i]? = some none) : Outwards edits i [i]
  | next {i outer : ScopeId} {ids : List ScopeId}
    (h : (edits.filterMap Edit.link?)[i]? = some (some outer)) (hids : Outwards edits outer ids) :
    Outwards edits i (i :: ids)

variable {s : Store} {edits : List Edit} {i scope : ScopeId} {ids : List ScopeId} {name : String}
  {v : Value}

theorem lastSet?_append (edits : List Edit) (edit : Edit) (name : String) (i : ScopeId) :
    lastSet? (edits ++ [edit]) name i = (edit.value? i name).or (lastSet? edits name i) := by
  unfold lastSet?
  rw [List.reverse_append, List.reverse_singleton, List.singleton_append, List.findSome?_cons]
  cases edit.value? i name <;> rfl

theorem lastSet?_append_set (edits : List Edit) (scope : ScopeId) (set : String) (v : Value)
    (name : String) (i : ScopeId) : lastSet? (edits ++ [.set scope set v]) name i
      = if scope = i ∧ set = name then some v else lastSet? edits name i := by
  rw [lastSet?_append, Edit.value?]
  by_cases hset : scope = i ∧ set = name
  · rw [if_pos hset, if_pos hset, Option.some_or]
  · rw [if_neg hset, if_neg hset, Option.none_or]

/-- To set a name makes no scope. -/
theorem Outwards.append_set (h : Outwards edits i ids) (scope : ScopeId) (name : String)
    (v : Value) : Outwards (edits ++ [.set scope name v]) i ids := by
  have hlinks : (edits ++ [Edit.set scope name v]).filterMap Edit.link?
      = edits.filterMap Edit.link? := by
    rw [List.filterMap_append]
    exact List.append_nil _
  induction h with
  | last hlink => exact .last (hlinks ▸ hlink)
  | next hlink _ ih => exact .next (hlinks ▸ hlink) ih

/-- A new scope binds nothing, and the others bind what they did. -/
theorem boundIn?_addScope (s : Store) (outer : Option ScopeId) (name : String) (i : ScopeId) :
    (s.addScope outer).2.boundIn? name i = s.boundIn? name i := by
  simp only [boundIn?, addScope, Array.getElem?_push]
  by_cases hi : i = s.scopes.size
  · rw [if_pos hi, hi, Array.getElem?_size]
    rfl
  · rw [if_neg hi]

/-- A name is set in one scope, and other names and other scopes are left
    alone. -/
theorem boundIn?_set (hscope : scope < s.scopes.size) (set : String) (v : Value) (name : String)
    (i : ScopeId) : (s.set scope set v).boundIn? name i
      = if scope = i ∧ set = name then some v else s.boundIn? name i := by
  unfold boundIn?
  by_cases hi : scope = i
  · subst hi
    have hfound : (s.set scope set v).scopes[scope]? = some
        { s.scopes[scope] with bindings := Bindings.insert set v s.scopes[scope].bindings } := by
      simp only [Store.set, Array.getElem?_modify, if_pos, Array.getElem?_eq_getElem hscope,
        Option.map_some]
    rw [hfound, Array.getElem?_eq_getElem hscope, Option.bind_some, Option.bind_some]
    by_cases hname : set = name
    · rw [if_pos ⟨rfl, hname⟩, hname]
      exact Bindings.find?_insert_self name v _
    · rw [if_neg fun h => hname h.2]
      exact Bindings.find?_insert_of_ne (Ne.symm hname) v _
  · rw [if_neg fun h => hi h.1, set_scopes_of_ne (Ne.symm hi)]

namespace Edited

/-- The links of scopes are those that they were made with. -/
theorem links_eq (h : Edited edits s) : s.links = edits.filterMap Edit.link? := by
  induction h with
  | nothing => rfl
  | root _ ih => rw [links_addScope, ih, List.filterMap_append]; rfl
  | enclose _ _ ih => rw [links_addScope, ih, List.filterMap_append]; rfl
  | set _ _ name v ih =>
      rw [links_set, ih, List.filterMap_append]
      exact (List.append_nil _).symm

/-- A scope is enclosed by one that was made before it. -/
theorem ranked (h : Edited edits s) : s.Ranked := by
  unfold Ranked
  induction h with
  | nothing => exact fun i o hlink => nomatch hlink
  | root _ ih =>
      rw [links_addScope]
      exact links_lt_append ih fun o ho => nomatch ho
  | enclose _ houter ih =>
      rw [links_addScope]
      refine links_lt_append ih fun o ho => ?_
      rw [length_links, ← Option.some.inj ho]
      exact houter
  | set _ _ name v ih =>
      rw [links_set]
      exact ih

/-- A scope binds a name to what it was last set to there. -/
theorem boundIn?_eq (h : Edited edits s) (name : String) (i : ScopeId) :
    s.boundIn? name i = lastSet? edits name i := by
  induction h with
  | nothing => rfl
  | root _ ih => rw [boundIn?_addScope, ih, lastSet?_append, Edit.value?, Option.none_or]
  | enclose _ _ ih => rw [boundIn?_addScope, ih, lastSet?_append, Edit.value?, Option.none_or]
  | @set edits s scope _ hscope set v ih =>
      rw [boundIn?_set hscope, ih, lastSet?_append_set]

/-- The way outwards that the edits tell is the one that the links lead. -/
theorem outwards_iff (h : Edited edits s) : Outwards edits i ids ↔ s.Walk i ids := by
  constructor
  · intro hids
    induction hids with
    | last hlink =>
        rw [← h.links_eq] at hlink
        rcases exists_scope_of_link hlink with ⟨here, hhere, houter⟩
        exact .last hhere houter
    | next hlink _ ih =>
        rw [← h.links_eq] at hlink
        rcases exists_scope_of_link hlink with ⟨here, hhere, houter⟩
        exact .outwards hhere houter ih
  · intro hwalk
    have hlink : ∀ {j : ScopeId} {here : Scope}, s.scopes[j]? = some here →
        (edits.filterMap Edit.link?)[j]? = some here.outer := by
      intro j here hhere
      rw [← h.links_eq, links_getElem?, hhere, Option.map_some]
    induction hwalk with
    | last hhere hlast => exact .last ((hlink hhere).trans (congrArg some hlast))
    | outwards hhere houter _ ih => exact .next ((hlink hhere).trans (congrArg some houter)) ih

/-- A name stands for what it was last set to in the nearest scope in which it
    was ever set. -/
theorem get?_eq (h : Edited edits s) (hids : Outwards edits i ids) (name : String) :
    s.get? i name = ids.findSome? (lastSet? edits name) := by
  have hbound : s.boundIn? name = lastSet? edits name := funext (h.boundIn?_eq name)
  rw [(h.outwards_iff.mp hids).get?_ranked h.ranked, hbound]

end Edited

/-- A scope that is not met before the name is found may bind it to anything,
    and other names too. -/
theorem findSome?_lastSet?_hidden {near far : List ScopeId} (hscope : scope ∉ near)
    (hfound : far = [] ∨ ∃ j ∈ near, lastSet? edits name j ≠ none) (set : String) (v : Value) :
    (near ++ far).findSome? (lastSet? (edits ++ [.set scope set v]) name)
      = (near ++ far).findSome? (lastSet? edits name) := by
  have hnear : ∀ j ∈ near, lastSet? (edits ++ [.set scope set v]) name j
      = lastSet? edits name j := by
    intro j hj
    have hne : scope ≠ j := fun heq => hscope (heq ▸ hj)
    rw [lastSet?_append_set, if_neg fun h => hne h.1]
  induction near with
  | nil =>
      rcases hfound with rfl | ⟨j, hj, -⟩
      · rfl
      · exact absurd hj List.not_mem_nil
  | cons j near ih =>
      rcases List.forall_mem_cons.mp hnear with ⟨hj, hnear⟩
      rw [List.cons_append, List.findSome?_cons, List.findSome?_cons, hj]
      cases hlast : lastSet? edits name j with
      | some w => rfl
      | none =>
          refine ih (fun hmem => hscope (List.mem_cons_of_mem _ hmem)) (hfound.imp_right ?_) hnear
          rintro ⟨k, hk, hne⟩
          rcases List.mem_cons.mp hk with rfl | hk
          · exact absurd hlast hne
          · exact ⟨k, hk, hne⟩

/-- What a name is set to is seen from every scope inside in which, and on the
    way from which, the name was never set. -/
theorem findSome?_lastSet?_seen {near far : List ScopeId}
    (hnear : ∀ j ∈ near, lastSet? edits name j = none) (v : Value) :
    (near ++ scope :: far).findSome? (lastSet? (edits ++ [.set scope name v]) name) = some v := by
  induction near with
  | nil => rw [List.nil_append, List.findSome?_cons, lastSet?_append_set, if_pos ⟨rfl, rfl⟩]
  | cons j near ih =>
      rcases List.forall_mem_cons.mp hnear with ⟨hj, hnear⟩
      rw [List.cons_append, List.findSome?_cons, lastSet?_append_set, hj]
      by_cases hscope : scope = j
      · rw [if_pos ⟨hscope, rfl⟩]
      · rw [if_neg fun h => hscope h.1]
        exact ih hnear

/-- What a name stands for in a scope is told by the edits that were made. There
    is one way outwards from the scope, and the name stands for what it was last
    set to in the first scope on the way in which it was ever set, and for
    nothing if there is no such scope. To set any name in a scope that is not on
    the way, or that is behind one in which the name was set, changes nothing. To
    set the name in a scope on the way, with none in front in which it was set,
    makes it stand for the new value. -/
theorem lookup_of_edits (h : Edited edits s) (hi : i < s.scopes.size) (name : String) :
    ∃ ids, (∀ ids', Outwards edits i ids' ↔ ids' = ids) ∧
      s.get? i name = ids.findSome? (lastSet? edits name) ∧
      ∀ scope < s.scopes.size, ∀ v,
        ((scope ∉ ids ∨ ∃ near far, ids = near ++ far ∧ scope ∉ near ∧
            ∃ j ∈ near, lastSet? edits name j ≠ none) →
          ∀ set, (s.set scope set v).get? i name = s.get? i name) ∧
        ∀ near far, ids = near ++ scope :: far → (∀ j ∈ near, lastSet? edits name j = none) →
          (s.set scope name v).get? i name = some v := by
  rcases h.ranked.exists_walk hi with ⟨ids, hwalk⟩
  have hids : Outwards edits i ids := h.outwards_iff.mpr hwalk
  refine ⟨ids, fun ids' => ⟨fun hids' => ?_, fun heq => heq ▸ hids⟩, h.get?_eq hids name,
    fun scope hscope v => ?_⟩
  · exact (h.outwards_iff.mp hids').unique hwalk
  have hlater : ∀ set, (s.set scope set v).get? i name
      = ids.findSome? (lastSet? (edits ++ [.set scope set v]) name) := fun set =>
    (h.set hscope set v).get?_eq (hids.append_set scope set v) name
  refine ⟨fun hhidden set => ?_, fun near far heq hnear => ?_⟩
  · rw [hlater, h.get?_eq hids name]
    rcases hhidden with hoff | ⟨near, far, rfl, hnear, hfound⟩
    · rw [← List.append_nil ids]
      exact findSome?_lastSet?_hidden hoff (.inl rfl) set v
    · exact findSome?_lastSet?_hidden hnear (.inr hfound) set v
  · rw [hlater, heq]
    exact findSome?_lastSet?_seen hnear v

/-- Four scopes, one inside of the other but for the last, which is next to the
    second one. A name is set in the outermost scope, is hidden in the second
    one, and is set once more in the outermost; another name is set there when
    all scopes have been made. -/
def sharedEdits : List Edit :=
  [.root, .set 0 "x" (.int 3 1), .enclose 0, .enclose 1, .set 1 "x" (.int 4 2), .enclose 0,
    .set 0 "x" (.int 5 3), .set 0 "late" (.int 6 7)]

/-- What becomes of them. -/
def sharedStore : Store :=
  let made := ((((empty.addScope none).2.set 0 "x" (.int 3 1)).addScope (some 0)).2.addScope
    (some 1)).2
  (((made.set 1 "x" (.int 4 2)).addScope (some 0)).2.set 0 "x" (.int 5 3)).set 0 "late" (.int 6 7)

theorem lookup_of_edits_shared :
    Edited sharedEdits sharedStore ∧ Outwards sharedEdits 2 [2, 1, 0] ∧
      sharedStore.get? 2 "x" = some (.int 4 2) ∧
      sharedStore.get? 3 "x" = some (.int 5 3) ∧
      (sharedStore.set 0 "x" (.bool true)).get? 2 "x" = some (.int 4 2) ∧
      (sharedStore.set 0 "late" .null).get? 2 "late" = some .null := by
  have hroot := Edited.nothing.root.set (show 0 < 1 by decide) "x" (.int 3 1)
  have hmade := (hroot.enclose (show 0 < 1 by decide)).enclose (show 1 < 2 by decide)
  have hhidden := (hmade.set (show 1 < 3 by decide) "x" (.int 4 2)).enclose (show 0 < 3 by decide)
  have hedited : Edited sharedEdits sharedStore :=
    (hhidden.set (show 0 < 4 by decide) "x" (.int 5 3)).set (show 0 < 4 by decide) "late"
      (.int 6 7)
  have hway : Outwards sharedEdits 2 [2, 1, 0] := .next rfl (.next rfl (.last rfl))
  have hbeside : Outwards sharedEdits 3 [3, 0] := .next rfl (.last rfl)
  rcases lookup_of_edits hedited (i := 2) (by decide) "x" with ⟨ids, hids, hget, hchange⟩
  rcases lookup_of_edits hedited (i := 2) (by decide) "late" with ⟨ids', hids', -, hseen⟩
  rcases lookup_of_edits hedited (i := 3) (by decide) "x" with ⟨_, hidsBeside, hgetBeside, -⟩
  obtain rfl := (hids _).mp hway
  obtain rfl := (hids' _).mp hway
  obtain rfl := (hidsBeside _).mp hbeside
  refine ⟨hedited, hway, hget, hgetBeside, ?_, ?_⟩
  · have hhides : ∃ j ∈ [2, 1], lastSet? sharedEdits "x" j ≠ none :=
      ⟨1, by decide, fun hnone => nomatch hnone⟩
    rw [(hchange 0 (by decide) (.bool true)).1 (.inr ⟨[2, 1], [0], rfl, by decide, hhides⟩), hget]
    rfl
  · refine (hseen 0 (by decide) .null).2 [2, 1] [] rfl fun j hj => ?_
    rcases List.mem_cons.mp hj with rfl | hj
    · rfl
    · rw [List.mem_singleton.mp hj]
      rfl

end Store

end Monkey
