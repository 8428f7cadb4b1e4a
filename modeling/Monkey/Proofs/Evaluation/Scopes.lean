import Monkey.Proofs.Evaluation.Nesting

/-!
# The Heap of Scopes

No link between scopes and functions leads nowhere.

Scopes and functions know one another in circles: a scope binds a function, and
the function remembers the scope it was made in, which may be the one that binds
it. What keeps this in order is time. A scope is enclosed by one that was there
when it was made, so the links from scope to scope lead to smaller and smaller
numbers. A function remembers a scope that was there when it was made, and a
scope is never removed.

Sessions are not the only way in which a heap comes about. Whoever uses the
language from outside may add scopes of their own, with or without a scope
around them, bind names in any of them, and evaluate programs in any of them,
in any order. `Store.Act` lists these acts, and `Store.Grows` is any number of
them. All that is asked of a value that is bound from outside is that its
functions have scopes.

A lookup follows the links, and `Store.chain` gives up where a link does not
lead to a smaller number or leads to no scope at all. In a heap that has grown
by these acts it never gives up: `Store.Walk` follows the links without asking,
so it would have no end on a circle and could not go on from a scope that is
missing, and it meets the same scopes (`Store.Walk.chain_eq`).

## Main definitions

* `Value.Grounded`: The functions in a value have scopes.
* `Store.Linked`: The links of a store lead to scopes.
* `Store.Act`, `Store.Grows`: What may be done to a heap of scopes.
* `Store.Walk`: The scopes on the way outwards.
* `Store.Ranked`: Every scope is enclosed by one that was there before it.

## Theorems

* `Store.Linked.addScope`, `Store.Linked.set`, `Store.Linked.calling`: Changes.
* `linking_followed`: Evaluation keeps links.
* `Store.Act.linked`: So does every act.
* `Store.Ranked.exists_walk`: There is a way outwards from every scope.
* `scopes_linked`: The links of a heap that has grown.
-/

namespace Monkey

/-- The functions in a value, however deep, remember scopes below a number. -/
def Value.Grounded (count : Nat) (v : Value) : Prop :=
  ∀ id params body scope, (Value.fn id params body scope).Inside v → scope < count

theorem Value.Grounded.mono {m n : Nat} {v : Value} (h : v.Grounded m) (hle : m ≤ n) :
    v.Grounded n :=
  fun id params body scope hin => Nat.lt_of_lt_of_le (h id params body scope hin) hle

theorem Value.Grounded.inside {n : Nat} {u v : Value} (h : v.Grounded n) (hu : u.Inside v) :
    u.Grounded n :=
  fun id params body scope hin => h id params body scope (hin.trans hu)

/-- What leaves a call is grounded if it was before it arrived. -/
theorem Value.Grounded.arrived {n : Nat} {v : Value} (h : v.Grounded n) :
    (Eval.arrived v).Grounded n := by
  cases v with
  | returned id inner => exact h.inside (.inner (.refl inner))
  | _ => exact h

namespace Store

/-- All links of a store lead to scopes: those between scopes to earlier ones,
    and those of functions to any. -/
structure Linked (s : Store) : Prop where
  /-- A scope is enclosed by one that was there before it. -/
  outer : ∀ i o : ScopeId, s.links[i]? = some (some o) → o < i
  /-- Functions that can be found remember scopes. -/
  bound : ∀ v, s.Binds v → v.Grounded s.scopes.size

theorem linked_empty : empty.Linked :=
  ⟨fun _ _ hlink => (nomatch hlink), fun _ hv => absurd hv not_binds_empty⟩

theorem prefix_of_links_eq {s s' : Store} (h : s'.links = s.links) : s.links <+: s'.links :=
  h ▸ List.prefix_refl s.links

/-- Links that are there longer belong to at least as many scopes. -/
theorem size_le_of_links {s s' : Store} (h : s.links <+: s'.links) :
    s.scopes.size ≤ s'.scopes.size := by
  have hle := h.length_le
  rwa [length_links, length_links] at hle

namespace Linked

variable {s s' : Store} {v : Value}

theorem of_eq (h : s.Linked) (hscopes : s'.scopes = s.scopes) : s'.Linked := by
  have hlinks : s'.links = s.links := by rw [links, links, hscopes]
  refine ⟨fun i o hlink => h.outer i o (hlinks ▸ hlink), fun v hv => ?_⟩
  rw [hscopes]
  exact h.bound v (hv.of_eq hscopes)

/-- A scope is added that is enclosed by one that is there, or by none. -/
theorem addScope (h : s.Linked) {outer : Option ScopeId}
    (houter : ∀ o, outer = some o → o < s.scopes.size) : (s.addScope outer).2.Linked := by
  refine ⟨fun i o hlink => ?_, fun v hv => ?_⟩
  · rw [links_addScope] at hlink
    exact links_lt_append h.outer (by rwa [length_links]) i o hlink
  · have hsize : s.scopes.size ≤ (s.addScope outer).2.scopes.size := by
      simp only [Store.addScope, Array.size_push, Nat.le_add_right]
    exact (h.bound v hv.of_addScope).mono hsize

theorem set (h : s.Linked) (scope : ScopeId) (name : String) (hv : v.Grounded s.scopes.size) :
    (s.set scope name v).Linked := by
  refine ⟨fun i o hlink => h.outer i o (links_set s scope name v ▸ hlink), fun u hu => ?_⟩
  rw [set_size]
  rcases hu.of_set with rfl | hu
  · exact hv
  · exact h.bound u hu

/-- The body of a function starts with one link more, that of its scope to the
    scope of the function. -/
theorem calling (h : s.Linked) {outer : ScopeId} (houter : outer < s.scopes.size)
    (params : List String) {args : List Value} (hargs : ∀ v ∈ args, v.Grounded s.scopes.size) :
    (s.calling outer (params.zip args)).Linked := by
  refine ⟨fun i o hlink => ?_, fun v hv => ?_⟩
  · rw [links_calling] at hlink
    refine links_lt_append h.outer (fun o ho => ?_) i o hlink
    rw [length_links, ← Option.some.inj ho]
    exact houter
  · rw [calling_size]
    rcases hv.of_calling with hmem | hbound
    · exact (hargs v hmem).mono (Nat.le_succ _)
    · exact (h.bound v hbound).mono (Nat.le_succ _)

end Linked

end Store

/-- Stores whose links lead to scopes, with some links that have been there from
    the beginning. A link is never taken away and never leads elsewhere. -/
def Discipline.linking (links : List (Option ScopeId)) : Discipline where
  good s := s.Linked ∧ s.current < s.scopes.size ∧ links <+: s.links
  moves s s' := s.links <+: s'.links
  fine s v := v.Grounded s.scopes.size
  refl _ := List.prefix_rfl
  trans := List.IsPrefix.trans
  stays hmoves h := h.mono (Store.size_le_of_links hmoves)

open Discipline (linking)

section

variable {links : List (Option ScopeId)} {s s' : Store}

/-- What leaves the scopes and the current one alone keeps their links. -/
theorem Discipline.linking_of_eq (hs : (linking links).good s) (hscopes : s'.scopes = s.scopes)
    (hcurrent : s'.current = s.current) :
    (linking links).good s' ∧ (linking links).moves s s' := by
  have hlinks : s'.links = s.links := by rw [Store.links, Store.links, hscopes]
  rcases hs with ⟨hlinked, hlt, hprefix⟩
  refine ⟨⟨hlinked.of_eq hscopes, ?_, hlinks ▸ hprefix⟩, ?_⟩
  · rw [hcurrent, hscopes]
    exact hlt
  · exact Store.prefix_of_links_eq hlinks

/-- A number may be taken. -/
theorem Discipline.linking_take (hs : (linking links).good s) :
    (linking links).good { s with nextId := s.nextId + 1 } ∧
      (linking links).moves s { s with nextId := s.nextId + 1 } :=
  linking_of_eq hs rfl rfl

/-- The body of a function starts with one link more. -/
theorem Discipline.linking_calling (hs : (linking links).good s) {outer : ScopeId}
    (houter : outer < s.scopes.size) (params : List String) {args : List Value}
    (hargs : ∀ v ∈ args, v.Grounded s.scopes.size) :
    (linking links).good (s.calling outer (params.zip args)) ∧
      (linking links).moves s (s.calling outer (params.zip args)) := by
  rcases hs with ⟨hlinked, -, hprefix⟩
  have hopened : s.links <+: (s.calling outer (params.zip args)).links := by
    rw [Store.links_calling]
    exact List.prefix_append _ _
  refine ⟨⟨hlinked.calling houter params hargs, ?_, hprefix.trans hopened⟩, hopened⟩
  rw [Store.calling_size]
  exact Nat.lt_succ_self _

namespace Eval

/-- An operation leaves the scopes alone, and what it gives is grounded if what
    it is given is. -/
theorem Gives.grounded {given : List Value} {v : Value} (h : Gives s given v s')
    (hs : s.Linked) (hgiven : ∀ g ∈ given, g.Grounded s.scopes.size) :
    s'.scopes = s.scopes ∧ s'.current = s.current ∧ v.Grounded s.scopes.size := by
  cases h with
  | null out => exact ⟨rfl, rfl, fun _ _ _ _ hin => nomatch hin⟩
  | bool b => exact ⟨rfl, rfl, fun _ _ _ _ hin => nomatch hin⟩
  | bound hget => exact ⟨rfl, rfl, hs.bound v (Store.binds_of_get? hget)⟩
  | found hg hin => exact ⟨rfl, rfl, (hgiven _ hg).inside hin⟩
  | made _ hkind hheld =>
      refine ⟨rfl, rfl, fun id params body scope hin => ?_⟩
      rcases hheld _ hin with rfl | ⟨g, hg, hin⟩
      · -- The object itself is no function.
        exact absurd rfl hkind.1
      · exact hgiven g hg id params body scope hin

theorem Trying.keeps_links {given : List Value} {m : Eval Value} (h : Trying given m)
    (hs : (linking links).good s) (hgiven : ∀ g ∈ given, g.Grounded s.scopes.size) :
    (linking links).Keeps s m (linking links).fine := by
  intro v s' hresult
  rcases h s v s' hresult with hgives | ⟨cause, herror⟩
  · rcases hgives.grounded hs.1 hgiven with ⟨hscopes, hcurrent, hv⟩
    rcases Discipline.linking_of_eq hs hscopes hcurrent with ⟨hgood, hmoves⟩
    exact ⟨hgood, hmoves, (linking links).stays hmoves hv⟩
  · rcases Prod.mk.inj (Option.some.inj herror) with ⟨rfl, rfl⟩
    rcases Discipline.linking_take hs with ⟨hgood, hmoves⟩
    exact ⟨hgood, hmoves, fun _ _ _ _ hin => nomatch hin⟩

theorem Trying.keeps_links_alone {m : Eval Value} (h : Trying [] m) (hs : (linking links).good s) :
    (linking links).Keeps s m (linking links).fine :=
  h.keeps_links hs fun _ hg => absurd hg List.not_mem_nil

/-- A call of a function comes back to the scope it was made in, with more
    links than before. -/
theorem call_keeps_links {run : BodyRunner}
    (hrun : ∀ s block, (linking links).good s →
      (linking links).Keeps s (run block) (linking links).fine)
    (hs : (linking links).good s) {f : Value} (hf : f.Grounded s.scopes.size) {args : List Value}
    (hargs : ∀ v ∈ args, v.Grounded s.scopes.size) :
    (linking links).Keeps s (call run f args) (linking links).fine := by
  by_cases hfn : ∃ id params body outer, f = .fn id params body outer ∧
      args.length = params.length
  · rcases hfn with ⟨id, params, body, outer, rfl, hlen⟩
    intro v s' hv
    rw [call_fn run id body outer hlen] at hv
    rcases Option.map_eq_some_iff.mp hv with ⟨⟨w, t⟩, hbody, heq⟩
    rcases Prod.mk.inj heq with ⟨rfl, rfl⟩
    have houter : outer < s.scopes.size := hf id params body outer (.refl _)
    rcases Discipline.linking_calling hs houter params hargs with ⟨hstart, hopened⟩
    rcases hrun _ body hstart w t hbody with ⟨⟨ht, -, hbefore⟩, hmoves, hw⟩
    have hgrown : s.links <+: t.links := List.IsPrefix.trans hopened hmoves
    -- The scope to come back to was there before, so it is there now.
    have hback : s.current < t.scopes.size :=
      Nat.lt_of_lt_of_le hs.2.1 (Store.size_le_of_links hgrown)
    exact ⟨⟨ht.of_eq rfl, hback, hbefore⟩, hgrown, hw.arrived⟩
  · exact (trying_call fun id params body outer heq hlen =>
      hfn ⟨id, params, body, outer, heq, hlen⟩).keeps_links hs hargs

end Eval

end

/-- What is done to a store keeps its links. -/
theorem linking_followed (links : List (Option ScopeId)) : (linking links).Followed where
  null _ _ _ _ _ hin := nomatch hin
  bool _ _ _ _ _ _ hin := nomatch hin
  ident s name hs := (Eval.trying_ident name).keeps_links_alone hs
  int s n hs := (Eval.giving_newInt n).trying.keeps_links_alone hs
  str s contents hs := (Eval.giving_newStr contents).trying.keeps_links_alone hs
  array s vs hs hvs :=
    (Eval.giving_newArray fun e he => ⟨e, he, .refl e⟩).trying.keeps_links hs
      fun v hv => (hvs v hv).1
  map s slots hs hslots := by
    have hmap : Eval.Trying (slots.map Slot.key ++ slots.map Slot.value) (Eval.newMap slots) :=
      (Eval.giving_newMap
        (fun slot hslot => List.mem_append_left _ (List.mem_map_of_mem hslot))
        fun slot hslot => List.mem_append_right _ (List.mem_map_of_mem hslot)).trying
    refine hmap.keeps_links hs fun v hv => ?_
    rcases List.mem_append.mp hv with hv | hv
    · rcases List.mem_map.mp hv with ⟨slot, hslot, rfl⟩
      exact (hslots slot hslot).1.1
    · rcases List.mem_map.mp hv with ⟨slot, hslot, rfl⟩
      exact (hslots slot hslot).2.1
  closure s params body hs := by
    intro v s' h
    rcases Prod.mk.inj (Option.some.inj h) with ⟨rfl, rfl⟩
    rcases Discipline.linking_take hs with ⟨hgood, hmoves⟩
    refine ⟨hgood, hmoves, fun id params' body' scope hin => ?_⟩
    -- A new function remembers the current scope, and that one is there.
    cases hin
    exact hs.2.1
  returned s v hs hv := by
    intro w s' h
    rcases Prod.mk.inj (Option.some.inj h) with ⟨rfl, rfl⟩
    rcases Discipline.linking_take hs with ⟨hgood, hmoves⟩
    refine ⟨hgood, hmoves, fun id params body scope hin => ?_⟩
    cases hin with
    | inner hin => exact hv.1 id params body scope hin
  error s cause hs := (Eval.trying_newError cause).keeps_links_alone hs
  unary s op v hs _ := (Eval.trying_unary op v).keeps_links_alone hs
  binary s op v w hs _ _ := (Eval.trying_binary op v w).keeps_links_alone hs
  index s v w hs hv _ :=
    (Eval.trying_index v w).keeps_links hs fun g hg => List.mem_singleton.mp hg ▸ hv.1
  bind s name v hs hv := by
    intro a s' h
    rcases Prod.mk.inj (Option.some.inj h) with ⟨-, rfl⟩
    rcases hs with ⟨hlinked, hcurrent, hprefix⟩
    have hlinks := Store.links_set s s.current name v
    refine ⟨⟨hlinked.set s.current name hv.1, ?_, hlinks ▸ hprefix⟩, ?_, trivial⟩
    · rw [Store.set_size]
      exact hcurrent
    · exact Store.prefix_of_links_eq hlinks
  call run hrun s f args hs hf hargs :=
    Eval.call_keeps_links hrun hs hf.1 fun v hv => (hargs v hv).1

/-- The body of a function that is grounded starts with links that lead to
    scopes. -/
theorem linking_enters (links : List (Option ScopeId)) : (linking links).Enters := by
  intro s id params body outer args hs hf hargs
  have houter : outer < s.scopes.size := hf.1 id params body outer (.refl _)
  exact (Discipline.linking_calling hs houter params fun v hv => (hargs v hv).1).1

namespace Store

variable {s s' : Store} {scope i : ScopeId}

/-- What may be done to a heap of scopes from outside: a scope is added, with
    or without one around it, a name is bound to a value whose functions have
    scopes, or a program is run. -/
inductive Act : Store → Store → Prop where
  | root {s : Store} : Act s (s.addScope none).2
  | enclose {s : Store} {outer : ScopeId} (h : outer < s.scopes.size) :
    Act s (s.addScope (some outer)).2
  | set {s : Store} {scope : ScopeId} {name : String} {v : Value} (h : scope < s.scopes.size)
    (hv : v.Grounded s.scopes.size) : Act s (s.set scope name v)
  | run {s s' : Store} {limit : Nat} {scope : ScopeId} {program : Block} {report : Report}
    (h : scope < s.scopes.size) (hrun : s.run limit scope program = some (report, s')) : Act s s'

/-- What becomes of a heap of scopes by any number of acts. -/
abbrev Grows : Store → Store → Prop :=
  Relation.ReflTransGen Act

/-- A program starts in a store whose links are those that were there. -/
theorem Linked.start (h : s.Linked) (hscope : scope < s.scopes.size) :
    (linking s.links).good (s.clearJournal.enter scope) :=
  ⟨h.of_eq rfl, hscope, List.prefix_rfl⟩

/-- A program keeps links, and its result is grounded in what it leaves. -/
theorem Linked.run (h : s.Linked) (hscope : scope < s.scopes.size) {limit : Nat}
    {program : Block} {report : Report} (hrun : s.run limit scope program = some (report, s')) :
    s'.Linked ∧ s.links <+: s'.links ∧
      ∀ v, report.result = some v → v.Grounded s'.scopes.size := by
  rcases Option.bind_eq_some_iff.mp hrun with ⟨⟨result, after⟩, heval, hreport⟩
  rcases Prod.mk.inj (Option.some.inj hreport) with ⟨rfl, rfl⟩
  have hkeeps := Discipline.evalFrom_keeps (linking_followed s.links)
    (fun t event ht => Discipline.linking_of_eq ht rfl rfl)
    (fun t id v hv => hv.inside (.inner (.refl v))) limit program none _ (h.start hscope)
    fun _ hnone => nomatch hnone
  rcases hkeeps result after heval with ⟨⟨hafter, -, hprefix⟩, -, hresult⟩
  exact ⟨hafter, hprefix, hresult⟩

/-- An act keeps links, and the links that are there stay. -/
theorem Act.linked (h : Act s s') (hs : s.Linked) : s'.Linked ∧ s.links <+: s'.links := by
  cases h with
  | root =>
      refine ⟨hs.addScope fun _ hnone => (nomatch hnone), ?_⟩
      rw [links_addScope]
      exact List.prefix_append _ _
  | enclose hlt =>
      refine ⟨hs.addScope fun o ho => Option.some.inj ho ▸ hlt, ?_⟩
      rw [links_addScope]
      exact List.prefix_append _ _
  | set _ hv =>
      exact ⟨hs.set _ _ hv, prefix_of_links_eq (links_set s _ _ _)⟩
  | run hscope hrun =>
      rcases hs.run hscope hrun with ⟨hs', hprefix, -⟩
      exact ⟨hs', hprefix⟩

/-- So do any number of acts. -/
theorem Grows.linked (h : s.Grows s') (hs : s.Linked) : s'.Linked ∧ s.links <+: s'.links := by
  induction h with
  | refl => exact ⟨hs, List.prefix_rfl⟩
  | tail _ hact ih =>
      rcases ih with ⟨hmiddle, hbefore⟩
      rcases hact.linked hmiddle with ⟨hafter, hmore⟩
      exact ⟨hafter, hbefore.trans hmore⟩

/-- A store that can be observed from a store on: the store itself, one in
    which a part of a program begins, or one that such a part leaves behind. -/
inductive Meets (s : Store) : Store → Prop where
  | here : Meets s s
  | begun {scope : ScopeId} {program : Block} {p : Point} (h : scope < s.scopes.size)
    (hp : Within ⟨.statements program, s.clearJournal.enter scope⟩ p) : Meets s p.store
  | left {scope : ScopeId} {program : Block} {p : Point} {v : Value} {t : Store}
    (h : scope < s.scopes.size) (hp : Within ⟨.statements program, s.clearJournal.enter scope⟩ p)
    (hv : p.Yields v t) : Meets s t

/-- A part of a program begins with links that lead to scopes. -/
theorem Linked.ready (h : s.Linked) (hscope : scope < s.scopes.size) {program : Block} {p : Point}
    (hp : Within ⟨.statements program, s.clearJournal.enter scope⟩ p) :
    (linking s.links).Ready p := by
  have hstart : (linking s.links).Ready ⟨.statements program, s.clearJournal.enter scope⟩ :=
    ⟨h.start hscope, trivial⟩
  exact hstart.within (linking_followed _) (linking_enters _) hp

theorem Meets.linked {t : Store} (h : s.Meets t) (hs : s.Linked) :
    t.Linked ∧ s.links <+: t.links := by
  cases h with
  | here => exact ⟨hs, List.prefix_rfl⟩
  | begun hscope hp =>
      rcases (hs.ready hscope hp).1 with ⟨ht, -, hprefix⟩
      exact ⟨ht, hprefix⟩
  | left hscope hp hv =>
      rcases (hs.ready hscope hp).yields (linking_followed _) hv with ⟨⟨ht, -, hprefix⟩, -, -⟩
      exact ⟨ht, hprefix⟩

/-- The scopes that are met on the way outwards, up to one that no scope
    encloses. Nothing is asked of the links but that they are there. -/
inductive Walk (s : Store) : ScopeId → List ScopeId → Prop where
  | last {i : ScopeId} {here : Scope} (h : s.scopes[i]? = some here) (hlast : here.outer = none) :
    Walk s i [i]
  | outwards {i outer : ScopeId} {here : Scope} {ids : List ScopeId}
    (h : s.scopes[i]? = some here) (houter : here.outer = some outer) (hwalk : Walk s outer ids) :
    Walk s i (i :: ids)

/-- There is no more than one way outwards. -/
theorem Walk.unique {ids ids' : List ScopeId} (h : s.Walk i ids) (h' : s.Walk i ids') :
    ids = ids' := by
  induction h generalizing ids' with
  | last hhere hlast =>
      cases h' with
      | last => rfl
      | outwards hhere' houter =>
          cases hhere.symm.trans hhere'
          cases hlast.symm.trans houter
  | outwards hhere houter _ ih =>
      cases h' with
      | last hhere' hlast =>
          cases hhere.symm.trans hhere'
          cases hlast.symm.trans houter
      | outwards hhere' houter' hwalk' =>
          cases hhere.symm.trans hhere'
          cases houter.symm.trans houter'
          exact congrArg _ (ih hwalk')

/-- Every scope is enclosed by one that was there before it, whatever is bound
    in them. -/
def Ranked (s : Store) : Prop :=
  ∀ i o : ScopeId, s.links[i]? = some (some o) → o < i

theorem Ranked.outer_lt (h : s.Ranked) {here : Scope} (hhere : s.scopes[i]? = some here)
    {outer : ScopeId} (houter : here.outer = some outer) : outer < i :=
  h i outer (by rw [links_getElem?, hhere, Option.map_some, houter])

/-- From every scope there is a way outwards. -/
theorem Ranked.exists_walk (h : s.Ranked) (hi : i < s.scopes.size) : ∃ ids, s.Walk i ids := by
  induction i using Nat.strongRecOn with
  | ind i ih =>
      have hhere : s.scopes[i]? = some s.scopes[i] := Array.getElem?_eq_getElem hi
      cases houter : s.scopes[i].outer with
      | none => exact ⟨[i], .last hhere houter⟩
      | some outer =>
          -- The scope around was there before, so it has a way outwards itself.
          have hlt := h.outer_lt hhere houter
          rcases ih outer hlt (Nat.lt_trans hlt hi) with ⟨ids, hids⟩
          exact ⟨i :: ids, .outwards hhere houter hids⟩

theorem Linked.ranked (h : s.Linked) : s.Ranked :=
  h.outer

theorem Linked.outer_lt (h : s.Linked) {here : Scope} (hhere : s.scopes[i]? = some here)
    {outer : ScopeId} (houter : here.outer = some outer) : outer < i :=
  h.ranked.outer_lt hhere houter

theorem Linked.exists_walk (h : s.Linked) (hi : i < s.scopes.size) : ∃ ids, s.Walk i ids :=
  h.ranked.exists_walk hi

/-- The way outwards leads to smaller and smaller numbers. -/
theorem Walk.decreasing (h : s.Linked) {ids : List ScopeId} (hids : s.Walk i ids) :
    (∀ j ∈ ids, j ≤ i) ∧ ids.Pairwise (· > ·) := by
  induction hids with
  | last => exact ⟨fun j hj => Nat.le_of_eq (List.mem_singleton.mp hj), List.pairwise_singleton _ _⟩
  | @outwards i outer here ids hhere houter _ ih =>
      have hlt := h.outer_lt hhere houter
      rcases ih with ⟨hle, hpairwise⟩
      have hless : ∀ j ∈ ids, j < i := fun j hj => Nat.lt_of_le_of_lt (hle j hj) hlt
      refine ⟨fun j hj => ?_, List.pairwise_cons.mpr ⟨hless, hpairwise⟩⟩
      rcases List.mem_cons.mp hj with rfl | hj
      · exact Nat.le_refl j
      · exact Nat.le_of_lt (hless j hj)

/-- A lookup that gives up where a link does not lead on meets the scopes of
    the way outwards: it never gives up. -/
theorem Walk.chain_eq (h : s.Ranked) {ids : List ScopeId} (hids : s.Walk i ids) :
    ids.map (s.scopes[·]?) = (s.chain i).map some := by
  induction hids with
  | last hhere hlast =>
      rw [chain, hhere]
      simp only [hlast, List.map_cons, List.map_nil, hhere]
  | outwards hhere houter _ ih =>
      rw [chain, hhere]
      simp only [houter, if_pos (h.outer_lt hhere houter), List.map_cons, hhere, ih]

/-- Depth counts the scopes on the way outwards. -/
theorem Walk.depth_eq (h : s.Linked) {ids : List ScopeId} (hids : s.Walk i ids) :
    s.depth i = ids.length := by
  have hlength := congrArg List.length (hids.chain_eq h.ranked)
  rw [List.length_map, List.length_map] at hlength
  exact hlength.symm

/-- What a name is bound to in one scope. -/
def boundIn? (s : Store) (name : String) (scope : ScopeId) : Option Value :=
  (s.scopes[scope]?).bind fun here => Bindings.find? name here.bindings

/-- A name stands for what the first scope on the way outwards binds it to. -/
theorem Walk.get?_ranked (h : s.Ranked) {ids : List ScopeId} (hids : s.Walk i ids) (name : String) :
    s.get? i name = ids.findSome? (s.boundIn? name) := by
  -- A scope that is missing would bind nothing, so both lookups can be put that way.
  calc s.get? i name
      = ((s.chain i).map some).findSome? (Option.bind · fun here =>
          Bindings.find? name here.bindings) := by
        rw [List.findSome?_map]
        rfl
    _ = (ids.map (s.scopes[·]?)).findSome? (Option.bind · fun here =>
          Bindings.find? name here.bindings) := by rw [hids.chain_eq h]
    _ = ids.findSome? (s.boundIn? name) := by
        rw [List.findSome?_map]
        rfl

theorem Walk.get?_eq (h : s.Linked) {ids : List ScopeId} (hids : s.Walk i ids) (name : String) :
    s.get? i name = ids.findSome? (s.boundIn? name) :=
  hids.get?_ranked h.ranked name

theorem exists_scope_of_link {outer : Option ScopeId} (h : s.links[i]? = some outer) :
    ∃ here, s.scopes[i]? = some here ∧ here.outer = outer := by
  rw [links_getElem?] at h
  exact Option.map_eq_some_iff.mp h

/-- The scope that encloses a scope is still the same when there are more. -/
theorem outer_eq_of_prefix {t : Store} (h : s.links <+: t.links) {here : Scope}
    (hhere : s.scopes[i]? = some here) :
    ∃ here', t.scopes[i]? = some here' ∧ here'.outer = here.outer := by
  have hi : i < s.links.length := by
    rw [length_links]
    exact (Array.getElem?_eq_some_iff.mp hhere).1
  have hlink : t.links[i]? = some here.outer := by
    rw [List.prefix_iff_getElem?.mp h i hi, ← List.getElem?_eq_getElem hi, links_getElem?, hhere,
      Option.map_some]
  exact exists_scope_of_link hlink

end Store

/-- In a heap that has grown from nothing, by whichever acts, no link leads
    nowhere. This goes for the moments in which programs are evaluated as well.
    A scope is enclosed by an earlier one or by none, and by the same one for
    ever. Every function that is bound somewhere, that belongs to a part of a
    program, or that such a part or a program comes to, remembers a scope that
    is there. From every scope there is one way outwards, through scopes that
    are there, to an end, and that is what depths and lookups go by. -/
theorem scopes_linked {s : Store} (h : Store.empty.Grows s) :
    (∀ t, s.Meets t →
      (∀ (i : ScopeId) here, t.scopes[i]? = some here → ∀ outer, here.outer = some outer →
        outer < i) ∧
      (∀ v, t.Binds v → v.Grounded t.scopes.size) ∧
      ∀ i < t.scopes.size, ∃ ids, (∀ ids', t.Walk i ids' ↔ ids' = ids) ∧
        ids.Pairwise (· > ·) ∧ (∀ j ∈ ids, j < t.scopes.size) ∧ t.depth i = ids.length ∧
        ∀ name, t.get? i name = ids.findSome? (t.boundIn? name)) ∧
    (∀ s' t, s.Grows s' → s'.Meets t → ∀ (i : ScopeId) here, s.scopes[i]? = some here →
      ∃ here', t.scopes[i]? = some here' ∧ here'.outer = here.outer) ∧
    ∀ scope < s.scopes.size, ∀ program,
      (∀ p, Within ⟨.statements program, s.clearJournal.enter scope⟩ p →
        p.task.Over (Value.Grounded p.store.scopes.size) ∧
        ∀ v t, p.Yields v t → v.Grounded t.scopes.size) ∧
      ∀ limit report s', s.run limit scope program = some (report, s') →
        ∀ v, report.result = some v → v.Grounded s'.scopes.size := by
  have hs : s.Linked := (h.linked Store.linked_empty).1
  refine ⟨fun t ht => ?_, fun s' t hs' ht i here hhere => ?_, fun scope hscope program => ?_⟩
  · have hlinked := (ht.linked hs).1
    refine ⟨fun i here hhere outer => hlinked.outer_lt hhere, hlinked.bound, fun i hi => ?_⟩
    rcases hlinked.exists_walk hi with ⟨ids, hids⟩
    rcases hids.decreasing hlinked with ⟨hle, hpairwise⟩
    refine ⟨ids, fun ids' => ⟨fun hids' => hids'.unique hids, fun heq => heq ▸ hids⟩, hpairwise,
      fun j hj => Nat.lt_of_le_of_lt (hle j hj) hi, hids.depth_eq hlinked, hids.get?_eq hlinked⟩
  · rcases hs'.linked hs with ⟨hlinked', hbefore⟩
    exact Store.outer_eq_of_prefix (hbefore.trans (ht.linked hlinked').2) hhere
  · refine ⟨fun p hp => ?_, fun limit report s' hrun => (hs.run hscope hrun).2.2⟩
    have hready := hs.ready hscope hp
    refine ⟨hready.2.imp fun v hv => hv.1, fun v t hv => ?_⟩
    exact (hready.yields (linking_followed _) hv).2.2

/-- Two scopes around which there is nothing, and a third one inside of the
    first that binds an array. In the array is a function of the second one. -/
def plantedHeap : Store :=
  let inner := (((Store.empty.addScope none).2.addScope none).2.addScope (some 0)).2
  inner.set 2 "fs" (.array 4 [.fn 3 ["x"] [.expr (.ident "x")] 1])

/-- A program that makes a function in a scope of its own, which remembers what
    was in the array: `let keep = fn(f) { fn() { f } }; let kept = keep(fs[0]);`. -/
def keepingProgram : Block :=
  [.bind "keep" (.fn ["f"] [.expr (.fn [] [.expr (.ident "f")])]),
    .bind "kept" (.call (.ident "keep") [.index (.ident "fs") (.int 0)])]

theorem scopes_linked_keepingProgram :
    ∃ report s, plantedHeap.run 1 2 keepingProgram = some (report, s) ∧
      s.links = [none, none, some 0, some 2] ∧ (∀ ids, s.Walk 3 ids ↔ ids = [3, 2, 0]) ∧
      s.get? 3 "fs" = [3, 2, 0].findSome? (s.boundIn? "fs") ∧
      ∀ v, s.Binds v → v.Grounded 4 := by
  have hlinks : (plantedHeap.run 1 2 keepingProgram).map (fun r => r.2.links)
      = some [none, none, some 0, some 2] := by decide +kernel
  rcases Option.map_eq_some_iff.mp hlinks with ⟨⟨report, s⟩, hrun, hlinks⟩
  have hplanted : Store.empty.Grows plantedHeap := by
    refine .tail (.tail (.tail (.tail .refl .root) .root) (.enclose ?_)) (.set ?_ ?_)
    · decide
    · decide
    · intro id params body scope hin
      rcases hin with _ | ⟨hmem, hin⟩
      cases List.mem_singleton.mp hmem
      cases hin
      decide
  have hgrows : Store.empty.Grows s := hplanted.tail (.run (by decide) hrun)
  have hsize : s.scopes.size = 4 := by rw [← s.length_links, hlinks]; rfl
  rcases (scopes_linked hgrows).1 s .here with ⟨-, hbound, hwalks⟩
  rcases hwalks 3 (hsize ▸ by decide) with ⟨ids, hids, -, -, -, hget⟩
  have hlink : ∀ i : ScopeId, s.links[i]? = [none, none, some 0, some 2][i]? := fun i =>
    congrArg (·[i]?) hlinks
  rcases Store.exists_scope_of_link (hlink 0) with ⟨here₀, hhere₀, houter₀⟩
  rcases Store.exists_scope_of_link (hlink 2) with ⟨here₂, hhere₂, houter₂⟩
  rcases Store.exists_scope_of_link (hlink 3) with ⟨here₃, hhere₃, houter₃⟩
  have hwalk : s.Walk 3 [3, 2, 0] :=
    .outwards hhere₃ houter₃ (.outwards hhere₂ houter₂ (.last hhere₀ houter₀))
  obtain rfl := (hids _).mp hwalk
  exact ⟨report, s, hrun, hlinks, hids, hget "fs", hsize ▸ hbound⟩

end Monkey
