import Monkey.Proofs.Evaluation.Position

/-!
# Depth Is Nesting

How many scopes a function looks a name up in can be read off the program text.

The scope of a function is the one that its literal was evaluated in, and the
body of a function is evaluated in a new scope that the scope of the function
encloses. So wherever a literal is evaluated, there is one scope for each
function literal around it and one for the program. Conditions add none, and
neither does calling a function from some depth or handing it on as a value.

The depth of a scope is fixed when the scope is made, since scopes are never
removed and never enclosed by another one later. What is known here
(`nestings`) is therefore how all scopes are enclosed that there are. It grows
at the end only, so any two moments agree about the scopes that both of them
have. That is what the argument needs: the depth that a scope had when a
function was made in it is the depth that it has whenever the function is
called, be it in a later program.

## Main definitions

* `Store.links`: How scopes are enclosed.
* `nestings`: The chronicle of functions and scopes.

## Theorems

* `Store.depth_eq_of_links`: The links of scopes tell their depth.
* `Store.depth_calling`: The scope of a call is one deeper than that of the
  function.
* `Store.Nested.calling`: A call keeps to what is known of the store.
* `nestings_followed`: Evaluation keeps to the chronicle.
* `Point.Stands.depth`: The current scope is as deep as the position is nested.
* `session_depth`: The depth of functions and calls in a session.
-/

namespace Monkey

namespace Store

variable {s s' : Store} {scope : ScopeId}

/-- By which scope each scope is enclosed. -/
def links (s : Store) : List (Option ScopeId) :=
  s.scopes.toList.map Scope.outer

theorem links_getElem? (s : Store) (i : ScopeId) :
    s.links[i]? = (s.scopes[i]?).map Scope.outer := by
  rw [links, List.getElem?_map, Array.getElem?_toList]

theorem length_links (s : Store) : s.links.length = s.scopes.size := by
  rw [links, List.length_map, Array.length_toList]

/-- How deep a scope is depends on how it and the scopes before it are
    enclosed. -/
theorem depth_eq_of_links (h : ∀ i ≤ scope, s.links[i]? = s'.links[i]?) :
    s.depth scope = s'.depth scope := by
  simp only [links_getElem?] at h
  unfold depth
  induction scope using Nat.strongRecOn with
  | ind scope ih =>
      have hhere := h scope (Nat.le_refl scope)
      rw [chain, chain]
      cases hs : s.scopes[scope]? with
      | none =>
          rw [hs] at hhere
          rw [Option.map_eq_none_iff.mp hhere.symm]
      | some found =>
          rw [hs] at hhere
          rcases Option.map_eq_some_iff.mp hhere.symm with ⟨found', hs', houter⟩
          rw [hs']
          simp only [houter]
          cases found.outer with
          | none => rfl
          | some outer =>
              simp only
              by_cases hlt : outer < scope
              · -- The walk goes on from a smaller number in both stores.
                rw [if_pos hlt, if_pos hlt, List.length_cons, List.length_cons,
                  ih outer hlt fun i hi => h i (Nat.le_of_lt (Nat.lt_of_le_of_lt hi hlt))]
              · rw [if_neg hlt, if_neg hlt]
                rfl

theorem depth_root (h : s.links[scope]? = some none) : s.depth scope = 1 := by
  rw [links_getElem?] at h
  rcases Option.map_eq_some_iff.mp h with ⟨found, hfound, houter⟩
  unfold depth
  rw [chain, hfound]
  simp only [houter]
  rfl

theorem depth_enclosed {outer : ScopeId} (h : s.links[scope]? = some (some outer))
    (hlt : outer < scope) : s.depth scope = s.depth outer + 1 := by
  rw [links_getElem?] at h
  rcases Option.map_eq_some_iff.mp h with ⟨found, hfound, houter⟩
  unfold depth
  rw [chain, hfound]
  simp only [houter, if_pos hlt, List.length_cons]

theorem links_set (s : Store) (scope : ScopeId) (name : String) (v : Value) :
    (s.set scope name v).links = s.links := by
  refine List.ext_getElem? fun i => ?_
  rw [links_getElem?, links_getElem?, set_outer]

theorem links_setAll (scope : ScopeId) (bindings : List (String × Value)) (s : Store) :
    (s.setAll scope bindings).links = s.links :=
  setAll_keeps links (fun s => links_set s scope) bindings s

/-- A scope that is added comes last. -/
theorem links_addScope (s : Store) (outer : Option ScopeId) :
    (s.addScope outer).2.links = s.links ++ [outer] := by
  simp only [links, addScope, Array.toList_push, List.map_append, List.map_cons, List.map_nil]

/-- One more link that leads back leaves all links leading back. -/
theorem links_lt_append {links : List (Option ScopeId)} {outer : Option ScopeId}
    (h : ∀ i o : ScopeId, links[i]? = some (some o) → o < i)
    (houter : ∀ o, outer = some o → o < links.length) (i o : ScopeId)
    (hlink : (links ++ [outer])[i]? = some (some o)) : o < i := by
  by_cases hi : i < links.length
  · rw [List.getElem?_append_left hi] at hlink
    exact h i o hlink
  · have hlast := Nat.not_lt.mp hi
    rw [List.getElem?_append_right hlast] at hlink
    have hmem := List.mem_singleton.mp (List.mem_of_getElem? hlink)
    exact Nat.lt_of_lt_of_le (houter o hmem.symm) hlast

/-- A call adds a scope that the scope of the function encloses. -/
theorem links_calling (s : Store) (outer : ScopeId) (bindings : List (String × Value)) :
    (s.calling outer bindings).links = s.links ++ [some outer] :=
  (links_setAll s.scopes.size bindings _).trans (s.links_addScope (some outer))

theorem setAll_journal (scope : ScopeId) (bindings : List (String × Value)) (s : Store) :
    (s.setAll scope bindings).journal = s.journal :=
  setAll_keeps journal (fun _ _ _ => rfl) bindings s

/-- The scope of a call is one deeper than that of the function. -/
theorem depth_calling {outer : ScopeId} (h : outer < s.scopes.size)
    (bindings : List (String × Value)) :
    (s.calling outer bindings).depth s.scopes.size = s.depth outer + 1 := by
  have hlast : (s.calling outer bindings).links[s.scopes.size]? = some (some outer) := by
    rw [links_calling, ← length_links, List.getElem?_concat_length]
  rw [depth_enclosed hlast h]
  refine congrArg (· + 1) (depth_eq_of_links fun i hi => ?_)
  rw [links_calling, List.getElem?_append_left]
  rw [length_links]
  exact Nat.lt_of_le_of_lt hi h

/-- A call is recorded with the depth of its scope. -/
theorem calling_journal {outer : ScopeId} (h : outer < s.scopes.size)
    (bindings : List (String × Value)) :
    (s.calling outer bindings).journal = .called (s.depth outer + 1) :: s.journal := by
  rw [← depth_calling h bindings]
  change Event.called _ :: (setAll _ _ _).journal = _
  rw [setAll_journal]
  refine congrArg (fun d => Event.called d :: s.journal) (depth_eq_of_links fun i _ => rfl)

end Store

/-- How scopes are enclosed, and where functions were made. The functions of a
    store have scopes of the store, each was made somewhere, and each call in
    the journal is one of the programs. -/
structure Store.Nested (programs : List Point) (links : List (Option ScopeId)) (s : Store) :
    Prop where
  links_eq : s.links = links
  root : links[0]? = some none
  outer : ∀ i outer : ScopeId, links[i]? = some (some outer) → outer < i
  current : s.current < links.length
  bound : ∀ v, s.Binds v → ∀ id params body scope, (Value.fn id params body scope).Inside v →
    scope < links.length ∧
      ∃ position, (Value.fn id params body scope).MadeAt programs position
  called : ∀ d, .called d ∈ s.journal → ∃ id params body scope args t,
    Point.Of ⟨.call (.fn id params body scope) args, t⟩ programs ∧ d = t.depth scope + 1

/-- What is known of functions and scopes: how all scopes are enclosed. -/
def nestings (programs : List Point) : Chronicle (List (Option ScopeId)) where
  good links s := s.Nested programs links
  fine links v := ∀ id params body scope, (Value.fn id params body scope).Inside v →
    scope < links.length ∧ ∃ position, (Value.fn id params body scope).MadeAt programs position
  grows links links' := links <+: links'
  allowed p := ∃ position, p.Stands programs position
  refl _ := List.prefix_rfl
  trans := List.IsPrefix.trans
  stays hgrows h id params body scope hin :=
    (h id params body scope hin).imp_left fun hlt => Nat.lt_of_lt_of_le hlt hgrows.length_le

theorem Store.Nested.length {programs : List Point} {links : List (Option ScopeId)} {s : Store}
    (h : s.Nested programs links) : links.length = s.scopes.size := by
  rw [← h.links_eq, length_links]

/-- What is known of a store is known where the body of a call starts as well,
    with one more link: from the scope of the call to that of the function. -/
theorem Store.Nested.calling {programs : List Point} {w : List (Option ScopeId)} {s : Store}
    {id : ObjectId} {params : List String} {body : Block} {outer : ScopeId} {args : List Value}
    (h : s.Nested programs w) (hlt : outer < w.length)
    (hargs : ∀ v ∈ args, (nestings programs).fine w v)
    (hcall : Point.Of ⟨.call (.fn id params body outer) args, s⟩ programs) :
    (s.calling outer (params.zip args)).Nested programs (w ++ [some outer]) where
  links_eq := by rw [links_calling, h.links_eq]
  root := by rw [List.getElem?_append_left (Nat.zero_lt_of_lt h.current), h.root]
  -- The new link leads to the scope of the function, which was there before.
  outer := links_lt_append h.outer fun o ho => by
    cases ho
    exact hlt
  current := by
    change s.scopes.size < _
    rw [List.length_append, h.length]
    exact Nat.lt_succ_self _
  bound v hv := by
    have hgrows : w <+: w ++ [some outer] := List.prefix_append w [some outer]
    rcases hv.of_calling with hmem | hbound
    · exact (nestings programs).stays hgrows (hargs v hmem)
    · exact (nestings programs).stays hgrows (h.bound v hbound)
  called d hd := by
    rw [calling_journal (h.length ▸ hlt)] at hd
    rcases List.mem_cons.mp hd with heq | hd
    · exact ⟨id, params, body, outer, args, s, hcall, Event.called.inj heq⟩
    · exact h.called d hd

/-- Evaluation keeps to the chronicle of functions and scopes. -/
theorem nestings_followed (programs : List Point) : (nestings programs).Followed where
  start := by
    refine ⟨[none], rfl, rfl, fun i outer hlink => ?_, Nat.zero_lt_one,
      fun v h => absurd h Store.not_binds_withRoot, fun d hd => absurd hd List.not_mem_nil⟩
    cases List.mem_singleton.mp (List.mem_of_getElem? hlink)
  printed h := { h with }
  stopped h := by
    refine { h with called := fun d hd => ?_ }
    rcases List.mem_cons.mp hd with heq | hd
    · cases heq
    · exact h.called d hd
  cleared h := { h with called := fun d hd => absurd hd List.not_mem_nil }
  null _ _ _ _ _ hin := nomatch hin
  bool _ _ _ _ _ _ hin := nomatch hin
  inside h hu id params body scope hin := h id params body scope (hin.trans hu)
  bound h hv := h.bound _ hv
  made {w s v} h _ hkind hheld := by
    refine ⟨w, List.prefix_rfl, { h with }, ?_⟩
    intro id params body scope hin
    rcases hheld _ hin with rfl | hfine
    · exact absurd rfl hkind.1
    · exact hfine id params body scope (.refl _)
  closure {w s params body} h hallowed := by
    refine ⟨w, List.prefix_rfl, { h with }, ?_⟩
    intro id params' body' scope hin
    cases hin
    rcases hallowed with ⟨position, hstands⟩
    exact ⟨h.current, position, params, body, s, rfl, hstands⟩
  bind {w s name v} h hv := by
    refine { h with
      links_eq := (Store.links_set s s.current name v).trans h.links_eq
      bound := fun u hu => ?_ }
    rcases hu.of_set with rfl | hu
    · exact hv.1
    · exact h.bound u hu
  enters {w s id params body outer args} h hf hargs hallowed := by
    rcases hallowed with ⟨position, hstands⟩
    exact ⟨w ++ [some outer], List.prefix_append w [some outer],
      h.calling (hf id params body outer (.refl _)).1 (fun v hv => (hargs v hv).1) hstands.of⟩
  leaves h hgrows h' :=
    { h' with current := Nat.lt_of_lt_of_le h.current hgrows.length_le }
  part {p q} hallowed hq hcall := by
    rcases hallowed with ⟨position, hstands⟩
    exact ⟨_, hstands.part hq hcall⟩
  body {w s id params body outer args} _ hf hlen hallowed := by
    rcases (hf id params body outer (.refl _)).2 with ⟨position, params', body', s₀, heq, hmade⟩
    cases heq
    rcases hallowed with ⟨position', hstands⟩
    exact ⟨position, hmade.body hstands hlen⟩

/-- Two stores agree about the depth of a scope that both of them have. -/
theorem Store.Nested.depth_eq {programs : List Point} {w w₁ w₂ : List (Option ScopeId)}
    {s s' : Store} {scope : ScopeId} (hs : s.Nested programs w₁) (hs' : s'.Nested programs w₂)
    (hw₁ : w₁ <+: w) (hw₂ : w₂ <+: w) (hlt : scope < w₁.length) (hlt' : scope < w₂.length) :
    s.depth scope = s'.depth scope := by
  refine Store.depth_eq_of_links fun i hi => ?_
  have hi₁ : i < w₁.length := Nat.lt_of_le_of_lt hi hlt
  have hi₂ : i < w₂.length := Nat.lt_of_le_of_lt hi hlt'
  rw [hs.links_eq, hs'.links_eq, List.getElem?_eq_getElem hi₁, List.getElem?_eq_getElem hi₂,
    hw₁.getElem hi₁, hw₂.getElem hi₂]

/-- Around what a task begins there are as many function literals as around its
    position. -/
theorem Task.enclosing_position (outside : List Phrase) (t : Task) :
    t.enclosing (t.position outside) = outside.countP Phrase.isFn := by
  unfold enclosing position
  cases t.phrase? <;> rfl

namespace Point

variable {programs : List Point} {position : List Phrase} {p : Point}

/-- What a part that is no function literal begins is as nested as the part. -/
theorem Stands.enclosing (hprograms : ∀ p ∈ programs, p.task.phrase? = none)
    (h : Stands programs position p) {q : Point} (hq : Begins p q) :
    p.task.enclosing position = position.countP Phrase.isFn := by
  unfold Task.enclosing
  cases hphrase : p.task.phrase? with
  | none => rfl
  | some a =>
      rcases h.head hprograms hphrase with ⟨outside, rfl⟩
      rw [List.countP_cons_of_neg (by simp [hq.not_fn hphrase])]
      rfl

theorem Session.stands (hp : p ∈ programs) : (nestings programs).allowed p :=
  ⟨[], .start hp⟩

theorem Session.phrases (h : Session programs) : ∀ p ∈ programs, p.task.phrase? = none := by
  intro p hp
  rcases h.starts p hp with ⟨program, s, rfl⟩
  rfl

section

variable {t : Store}

/-- At each moment of a session, it is known how scopes are enclosed. -/
theorem Session.nested (hsession : Session programs) (hp : p.Of programs) (ht : p.Moment t) :
    ∃ links, t.Nested programs links :=
  Chronicle.session_moment (nestings_followed programs) hsession (fun _ => Session.stands) hp ht

theorem Session.nested_shown (hsession : Session programs) (hp : p.Of programs) {v : Value}
    (hv : p.Shows t v) : ∃ links, t.Nested programs links ∧ (nestings programs).fine links v :=
  Chronicle.session_shown (nestings_followed programs) hsession (fun _ => Session.stands) hp hv

/-- At each moment of a session, the current scope exists. -/
theorem Session.current_lt (hsession : Session programs) (hp : p.Of programs) (ht : p.Moment t) :
    t.current < t.scopes.size := by
  rcases hsession.nested hp ht with ⟨links, hnested⟩
  rw [← hnested.length]
  exact hnested.current

end

/-- Where a part begins, the current scope is as deep as its position is nested
    in function literals. -/
theorem Stands.depth (hsession : Session programs) (h : Stands programs position p) :
    p.store.depth p.store.current = p.task.enclosing position + 1 := by
  induction h with
  | @start p hp =>
      rcases hsession.nested ⟨p, hp, .refl⟩ (.inl rfl) with ⟨links, hnested⟩
      rcases hsession.starts p hp with ⟨program, s, rfl⟩
      exact Store.depth_root (hnested.links_eq ▸ hnested.root)
  | @part position p q hp hq hcall ih =>
      have hframe := hq.frame hcall
      have hcurrent := hsession.current_lt hp.of (.inl rfl)
      have hdepth : q.store.depth p.store.current = p.store.depth p.store.current := by
        refine Store.depth_eq_of_links fun i hi => ?_
        rw [Store.links_getElem?, Store.links_getElem?,
          hframe.outer i (Nat.lt_of_le_of_lt hi hcurrent)]
      rw [hframe.current, hdepth, ih, Task.enclosing_position,
        hp.enclosing hsession.phrases hq]
  | @body position position' params b args s₀ s hmade hcall hlen ih _ =>
      rcases Chronicle.session_knows (nestings_followed programs) hsession
        (fun _ => Session.stands) hmade.of hcall.of with ⟨w, hknows, hknows'⟩
      rcases hknows.ready with ⟨w₁, hgrows₁, hgood₁, -⟩
      rcases hknows'.ready with ⟨w₂, hgrows₂, hgood₂, hvalues⟩
      -- The scope was there when the function was made, and it is there when it is called.
      have hlt := (hvalues.1.1 _ params b s₀.current (.refl _)).1
      have hdepth := hgood₂.depth_eq hgood₁ hgrows₂ hgrows₁ hlt hgood₁.current
      rcases hmade.head hsession.phrases (a := .expr (.fn params b)) rfl with ⟨outside, rfl⟩
      refine (Store.depth_calling (hgood₂.length ▸ hlt) _).trans ?_
      rw [hdepth, ih]
      exact congrArg (· + 1) (List.countP_cons_of_pos rfl).symm

/-- Whenever a function is there, its scope is one deeper than its literal is
    nested. -/
theorem Session.depth_shown (hsession : Session programs) (hp : p.Of programs) {t : Store}
    {id : ObjectId} {params : List String} {body : Block} {scope : ScopeId}
    (hshows : p.Shows t (.fn id params body scope))
    (hmade : (Value.fn id params body scope).MadeAt programs position) :
    scope < t.scopes.size ∧ t.depth scope = nesting position + 1 := by
  rcases hmade with ⟨params', body', s₀, heq, hstands⟩
  cases heq
  have hfollowed := nestings_followed programs
  rcases Chronicle.session_knows hfollowed hsession (fun _ => Session.stands) hp hstands.of with
    ⟨w, hknows, hknows'⟩
  rcases hknows.shows hfollowed hshows with ⟨w₁, hgrows₁, hgood₁, hfine⟩
  rcases hknows'.ready with ⟨w₂, hgrows₂, hgood₂, -⟩
  have hlt := (hfine _ _ _ _ (.refl _)).1
  refine ⟨hgood₁.length ▸ hlt, ?_⟩
  -- The scope is as deep as it was when the literal was evaluated in it.
  rw [hgood₁.depth_eq hgood₂ hgrows₁ hgrows₂ hlt hgood₂.current]
  exact hstands.depth hsession

end Point

/-- A depth that a call in some programs records if it goes by where the
    function was made. -/
def NestedCall (programs : List Point) (d : Nat) : Prop :=
  ∃ id params body scope args s position,
    Point.Of ⟨.call (.fn id params body scope) args, s⟩ programs ∧
    (Value.fn id params body scope).MadeAt programs position ∧ d = nesting position + 2

/-- All calls in a journal of a session have recorded such a depth. -/
theorem Point.Session.nestedCall {programs : List Point} (hsession : Session programs) {p : Point}
    (hp : p.Of programs) {t : Store} (ht : p.Moment t) {d : Nat}
    (hd : .called d ∈ t.journal) : NestedCall programs d := by
  rcases hsession.nested hp ht with ⟨links, hnested⟩
  rcases hnested.called d hd with ⟨id, params, body, scope, args, s, hcall, rfl⟩
  -- What is called was made somewhere, as the call itself is a part of the session.
  rcases hsession.nested_shown hcall .callee with ⟨_, -, hfine⟩
  rcases (hfine id params body scope (.refl _)).2 with ⟨position, hmade⟩
  refine ⟨id, params, body, scope, args, s, position, hcall, hmade, ?_⟩
  rw [(hsession.depth_shown hcall .callee hmade).2]

/-- The depth of functions and calls in a session, whatever its programs are and
    whether the last one ends. Every function that there is at some moment was
    made by a literal at a position in one of the programs. Whenever it was made
    at a position, the scope of the function is one deeper than the position is
    nested in function literals, and a call of the function, from wherever,
    records a depth that is one more. The journals have no other records of
    calls, and neither have the reports. -/
theorem session_depth {programs : List Point} (hsession : Point.Session programs) :
    (∀ (p : Point) (t : Store) id params body scope, p.Of programs →
      p.Shows t (.fn id params body scope) →
        (∃ position, (Value.fn id params body scope).MadeAt programs position) ∧
        ∀ position, (Value.fn id params body scope).MadeAt programs position →
          (∃ program s outside, .start program s ∈ programs ∧ Position.In program position ∧
            position = .expr (.fn params body) :: outside) ∧
          t.depth scope = nesting position + 1) ∧
    (∀ id params body scope args s position,
      Point.Of ⟨.call (.fn id params body scope) args, s⟩ programs →
      (Value.fn id params body scope).MadeAt programs position →
        (s.calling scope (params.zip args)).journal
          = .called (nesting position + 2) :: s.journal) ∧
    (∀ (p : Point) (t : Store) d, p.Of programs → p.Moment t → .called d ∈ t.journal →
      NestedCall programs d) ∧
    ∀ program s limit report s' d, .start program s ∈ programs →
      s.run limit Store.withRoot.1 program = some (report, s') → .called d ∈ report.events →
        NestedCall programs d := by
  refine ⟨fun p t id params body scope hp hshows => ⟨?_, fun position hmade => ⟨?_, ?_⟩⟩,
    fun id params body scope args s position hcall hmade => ?_,
    fun p t d hp ht hd => hsession.nestedCall hp ht hd, ?_⟩
  · rcases hsession.nested_shown hp hshows with ⟨_, -, hfine⟩
    exact (hfine id params body scope (.refl _)).2
  · rcases hmade with ⟨params', body', s₀, heq, hstands₀⟩
    cases heq
    rcases hstands₀.head hsession.phrases rfl with ⟨outside, houtside⟩
    rcases hstands₀.inProgram hsession.starts with ⟨program, s, hstart, hin, -⟩
    exact ⟨program, s, outside, hstart, hin, houtside⟩
  · exact (hsession.depth_shown hp hshows hmade).2
  · rcases hsession.depth_shown hcall .callee hmade with ⟨hlt, hdepth⟩
    rw [Store.calling_journal hlt, hdepth]
  · intro program s limit report s' d hstart hrun hd
    refine hsession.nestedCall ⟨_, hstart, .refl⟩ (.inr ⟨.done, Point.comes_start hrun⟩) ?_
    rcases Option.bind_eq_some_iff.mp hrun with ⟨⟨result, after⟩, -, hreport⟩
    rcases Prod.mk.inj (Option.some.inj hreport) with ⟨rfl, rfl⟩
    exact List.mem_reverse.mp hd

/-- A function that makes another one, inside a condition. -/
def nestedLiterals : Block :=
  [.bind "outer" (.fn ["a"]
      [.expr (.cond (.ident "a") [.expr (.fn ["b"] [.expr (.ident "a")])] none)]),
    .bind "inner" (.call (.ident "outer") [.int 1])]

/-- A later program that calls what was made inside, twice. -/
def nestedCalls : Block :=
  [.expr (.call (.ident "inner") [.call (.ident "inner") [.int 2]])]

theorem session_depth_nestedCalls :
    ∃ r r', Store.withRoot.2.run 2 0 nestedLiterals = some r ∧
      r.2.run 2 0 nestedCalls = some r' ∧ r.1.events = [.called 2] ∧
      r'.1.events = [.called 3, .called 3] ∧
      NestedCall [.start nestedCalls r.2, .start nestedLiterals Store.withRoot.2] 3 := by
  have hevents : ((do
      let r ← Store.withRoot.2.run 2 0 nestedLiterals
      let r' ← r.2.run 2 0 nestedCalls
      return (r.1.events, r'.1.events)) : Option (List Event × List Event))
        = some ([.called 2], [.called 3, .called 3]) := by decide +kernel
  rcases Option.bind_eq_some_iff.mp hevents with ⟨r, hfirst, hevents⟩
  rcases Option.bind_eq_some_iff.mp hevents with ⟨r', hsecond, hevents⟩
  rcases Prod.mk.inj (Option.some.inj hevents) with ⟨hearlier, hlater⟩
  have hsession : Point.Session [.start nestedCalls r.2, .start nestedLiterals Store.withRoot.2] :=
    .last (.run .fresh hfirst) nestedCalls
  refine ⟨r, r', hfirst, hsecond, hearlier, hlater, ?_⟩
  exact (session_depth hsession).2.2.2 nestedCalls r.2 2 r'.1 r'.2 3 List.mem_cons_self hsecond
    (hlater ▸ List.mem_cons_self)

end Monkey
