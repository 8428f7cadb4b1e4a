import Monkey.Proofs.Evaluation.Bindings
import Monkey.Proofs.Evaluation.Contents
import Monkey.Proofs.Evaluation.Course

/-!
# What Is Known in an Evaluation

Invariants that speak of several moments at once.

A discipline says of a single store which values are fine in it. That is not
enough where two values have to be compared that occur at different moments, or
where a value is fine because of something that happened when it was made. What
is needed is something that grows while the evaluation goes on, and remembers
all that there has been: the objects that were made, for instance. The store
does not, since it forgets every value that is not bound.

A chronicle is a discipline whose stores and values are judged by what is
known. Knowledge is never lost, and a value that is fine stays so. Each
operation may add to what is known, and what it adds need not be told from the
store: it is only said to exist. Operations that make no function do what
`Eval.Gives` lists, so there is little to ask of a chronicle.

From this follows more than that parts begin and end well. If two parts belong
to one evaluation then what is known in the end covers both of them, whichever
comes first, and even if the evaluation does not end (`Chronicle.knows_both`).
So whatever what is known says about two values holds of any two values that
ever occur.

## Main definitions

* `Chronicle`: What can be known, and what it says.
* `Chronicle.Ready`, `Chronicle.Found`: How parts begin and what they come to.
* `Chronicle.Followed`: The operations keep to a chronicle.
* `Chronicle.Knows`: What is known covers a part.

## Theorems

* `Chronicle.follows`: Courses keep to a chronicle.
* `Chronicle.learns`: A part that ends has taught all there was to learn in it.
* `Chronicle.knows`, `Chronicle.knows_both`: The parts of a part.
-/

namespace Monkey

theorem Store.not_binds_withRoot {v : Value} : ¬Store.withRoot.2.Binds v :=
  fun h => not_binds_empty h.of_addScope

/-- What can be known, and what it says of stores and values. -/
structure Chronicle (W : Type) where
  /-- The stores that agree with what is known. -/
  good : W → Store → Prop
  /-- The values that may occur. -/
  fine : W → Value → Prop
  /-- More is known. -/
  grows : W → W → Prop
  /-- The parts that may begin, as far as this is not a matter of knowledge. -/
  allowed : Point → Prop
  refl : ∀ w, grows w w
  trans : ∀ {a b c}, grows a b → grows b c → grows a c
  /-- A value stays fine. -/
  stays : ∀ {a b v}, grows a b → fine a v → fine b v

namespace Chronicle

variable {W : Type} {c : Chronicle W} {w w' : W} {s s' : Store} {v : Value}

/-- A fine value that does not stop. -/
def Plain (c : Chronicle W) (w : W) (v : Value) : Prop :=
  c.fine w v ∧ v.stops = false

theorem Plain.mono (h : c.Plain w v) (hgrows : c.grows w w') : c.Plain w' v :=
  ⟨c.stays hgrows h.1, h.2⟩

/-- A part that begins in a good store, with plain values. -/
def Ready (c : Chronicle W) (w : W) (p : Point) : Prop :=
  c.good w p.store ∧ p.task.Over (c.Plain w)

/-- The values that a part has come to are fine. -/
def Holds (c : Chronicle W) (w : W) : Finding → Prop
  | .value v => c.fine w v
  | .list (.ok vs) => ∀ v ∈ vs, c.Plain w v
  | .list (.error v) => c.fine w v
  | .done => True

/-- A part has come to fine values and has left a good store behind. -/
def Found (c : Chronicle W) (w : W) (s : Store) (a : Finding) : Prop :=
  c.good w s ∧ c.Holds w a

/-- What is done to a store keeps to the chronicle. A function is made by a
    part that is known, and the body of a function begins one. -/
structure Followed (c : Chronicle W) : Prop where
  /-- There is something to start from. -/
  start : ∃ w, c.good w Store.withRoot.2
  /-- Something is printed. -/
  printed : ∀ {w s out}, c.good w s → c.good w { s with output := out }
  /-- An error is recorded. -/
  stopped : ∀ {w s cause}, c.good w s →
    c.good w { s with journal := .stopped cause :: s.journal }
  /-- A program begins with a journal of its own. -/
  cleared : ∀ {w s}, c.good w s → c.good w s.clearJournal
  null : ∀ w, c.fine w .null
  bool : ∀ w b, c.fine w (.bool b)
  /-- What a fine value holds is fine. -/
  inside : ∀ {w v u}, c.fine w v → u.Inside v → c.fine w u
  /-- What a name is bound to is fine. -/
  bound : ∀ {w s v}, c.good w s → s.Binds v → c.fine w v
  /-- An object is made that is no function and none of what is shared, and that
      holds nothing but what is fine. -/
  made : ∀ {w s v}, c.good w s → v.number = s.nextId →
    v.type ≠ .function ∧ v.type.isShared = false →
    (∀ u, u.Inside v → u = v ∨ c.fine w u) →
      ∃ w', c.grows w w' ∧ c.good w' { s with nextId := s.nextId + 1 } ∧ c.fine w' v
  /-- A function is made. -/
  closure : ∀ {w s params body}, c.good w s → c.allowed ⟨.expr (.fn params body), s⟩ →
    ∃ w', c.grows w w' ∧ c.good w' { s with nextId := s.nextId + 1 } ∧
      c.fine w' (.fn s.nextId params body s.current)
  /-- A name is bound. -/
  bind : ∀ {w s name v}, c.good w s → c.Plain w v → c.good w (s.set s.current name v)
  /-- A body begins. -/
  enters : ∀ {w s id params body outer args}, c.good w s →
    c.fine w (.fn id params body outer) → (∀ v ∈ args, c.Plain w v) →
    c.allowed ⟨.call (.fn id params body outer) args, s⟩ →
      ∃ w', c.grows w w' ∧ c.good w' (s.calling outer (List.zip params args))
  /-- A scope that was the current one becomes it again. -/
  leaves : ∀ {w w' s s'}, c.good w s → c.grows w w' → c.good w' s' →
    c.good w' (s'.enter s.current)
  /-- A part begins without a call. -/
  part : ∀ {p q}, c.allowed p → Begins p q → (∀ f args, p.task ≠ .call f args) → c.allowed q
  /-- The body of a function may begin. -/
  body : ∀ {w s id params body outer args}, c.good w s → c.fine w (.fn id params body outer) →
    args.length = params.length → c.allowed ⟨.call (.fn id params body outer) args, s⟩ →
      c.allowed ⟨.block .null body, s.calling outer (List.zip params args)⟩

/-- A course keeps to a chronicle from a store: parts begin as they should, and
    if they end as they should then so does the course. -/
def Follows (c : Chronicle W) : Course → W → Store → Prop
  | .ends m, w, s => ∀ a s', m s = some (a, s') → ∃ w', c.grows w w' ∧ c.Found w' s' a
  | .begins q next, w, _ =>
    ∃ w₀, c.grows w w₀ ∧ c.Ready w₀ q ∧
      ∀ w' a s', c.grows w₀ w' → c.Found w' s' a → c.Follows (next a s') w' s'

section Courses

variable {q : Point}

theorem follows_pure {a : Finding} (hs : c.good w s) (ha : c.Holds w a) :
    c.Follows (.ends (pure a)) w s := by
  intro b s' h
  rcases Prod.mk.inj (Option.some.inj h) with ⟨rfl, rfl⟩
  exact ⟨w, c.refl w, hs, ha⟩

theorem follows_tooDeep : c.Follows (.ends Eval.tooDeep) w s :=
  fun _ _ h => by cases h

theorem follows_operation {m : Eval Value}
    (h : ∀ v s', m s = some (v, s') → ∃ w', c.grows w w' ∧ c.good w' s' ∧ c.fine w' v) :
    c.Follows (.operation m) w s := by
  intro a s' hresult
  rcases Option.bind_eq_some_iff.mp hresult with ⟨⟨v, t⟩, hm, hrest⟩
  rcases Prod.mk.inj (Option.some.inj hrest) with ⟨rfl, rfl⟩
  exact h v t hm

theorem gives (h : c.Followed) {given : List Value} (hs : c.good w s)
    (hgiven : ∀ g ∈ given, c.fine w g) (hv : Eval.Gives s given v s') :
    ∃ w', c.grows w w' ∧ c.good w' s' ∧ c.fine w' v := by
  cases hv with
  | null out => exact ⟨w, c.refl w, h.printed hs, h.null w⟩
  | bool b => exact ⟨w, c.refl w, hs, h.bool w b⟩
  | bound hget => exact ⟨w, c.refl w, hs, h.bound hs (Store.binds_of_get? hget)⟩
  | found hg hin => exact ⟨w, c.refl w, hs, h.inside (hgiven _ hg) hin⟩
  | made hid hkind hheld =>
      refine h.made hs hid ⟨hkind.1, hkind.2.1⟩ fun u hu => (hheld u hu).imp_right ?_
      rintro ⟨g, hg, hin⟩
      exact h.inside (hgiven g hg) hin

/-- Operations that make no function. -/
theorem follows_trying (h : c.Followed) {given : List Value} (hs : c.good w s)
    (hgiven : ∀ g ∈ given, c.fine w g) {m : Eval Value} (hm : Eval.Trying given m) :
    c.Follows (.operation m) w s := by
  refine follows_operation fun v s' hv => ?_
  rcases hm s v s' hv with hgives | ⟨cause, herror⟩
  · exact gives h hs hgiven hgives
  · rcases Prod.mk.inj (Option.some.inj herror) with ⟨rfl, rfl⟩
    refine h.made hs rfl ⟨nofun, rfl⟩ fun u hu => ?_
    cases hu
    exact .inl rfl

/-- Operations that hand on nothing that they are given. -/
theorem follows_alone (h : c.Followed) (hs : c.good w s) {m : Eval Value}
    (hm : Eval.Trying [] m) : c.Follows (.operation m) w s :=
  follows_trying h hs (fun _ hg => absurd hg List.not_mem_nil) hm

theorem follows_handing (hq : c.Ready w q) : c.Follows (.handing q) w s :=
  ⟨w, c.refl w, hq, fun _ _ _ _ hfound => follows_pure hfound.1 hfound.2⟩

theorem follows_passing {next : Value → Store → Course} (hq : c.Ready w q)
    (hnext : ∀ w' v s', c.grows w w' → c.good w' s' → c.Plain w' v → c.Follows (next v s') w' s') :
    c.Follows (.passing q next) w s := by
  refine ⟨w, c.refl w, hq, fun w' a s' hgrows hfound => ?_⟩
  cases a with
  | value v =>
      simp only
      by_cases hstops : v.stops = true
      · -- It is handed on, and all that is asked of it is that it is fine.
        rw [if_pos hstops]
        exact follows_pure hfound.1 hfound.2
      · rw [if_neg hstops]
        exact hnext w' v s' hgrows hfound.1 ⟨hfound.2, Bool.eq_false_iff.mpr hstops⟩
  | list _ | done => exact follows_tooDeep

theorem follows_listing {next : List Value → Store → Course} (hq : c.Ready w q)
    (hnext : ∀ w' vs s', c.grows w w' → c.good w' s' → (∀ v ∈ vs, c.Plain w' v) →
      c.Follows (next vs s') w' s') :
    c.Follows (.listing q next) w s := by
  refine ⟨w, c.refl w, hq, fun w' a s' hgrows hfound => ?_⟩
  cases a with
  | list found =>
      cases found with
      | ok vs => exact hnext w' vs s' hgrows hfound.1 hfound.2
      | error v => exact follows_pure hfound.1 hfound.2
  | value _ | done => exact follows_tooDeep

theorem follows_collecting (hv : c.Plain w v) (hq : c.Ready w q) :
    c.Follows (.collecting v q) w s := by
  refine ⟨w, c.refl w, hq, fun w' a s' hgrows hfound => ?_⟩
  cases a with
  | list found =>
      cases found with
      | ok vs =>
          refine follows_pure hfound.1 fun u hu => ?_
          rcases List.mem_cons.mp hu with rfl | hu
          · exact hv.mono hgrows
          · exact hfound.2 u hu
      | error u => exact follows_pure hfound.1 hfound.2
  | value _ | done => exact follows_pure hfound.1 hfound.2

end Courses

section Forms

theorem plain_null (h : c.Followed) (w : W) : c.Plain w .null :=
  ⟨h.null w, rfl⟩

theorem follows_expr (h : c.Followed) {e : Expr} (hs : c.good w s)
    (ha : c.allowed ⟨.expr e, s⟩) : c.Follows (Point.course ⟨.expr e, s⟩) w s := by
  cases e with
  | ident name => exact follows_alone h hs (Eval.trying_ident name)
  | int n => exact follows_alone h hs (Eval.giving_newInt n).trying
  | str contents => exact follows_alone h hs (Eval.giving_newStr contents).trying
  | bool b => exact follows_alone h hs (Eval.giving_bool b).trying
  | unary op e =>
      refine follows_passing ⟨hs, trivial⟩ fun w₁ v s₁ _ hs₁ hv => ?_
      exact follows_alone h hs₁ (Eval.trying_unary op v)
  | binary op e f =>
      refine follows_passing ⟨hs, trivial⟩ fun w₁ v s₁ _ hs₁ _ => ?_
      refine follows_passing ⟨hs₁, trivial⟩ fun w₂ u s₂ _ hs₂ _ => ?_
      exact follows_alone h hs₂ (Eval.trying_binary op v u)
  | cond e b d =>
      refine follows_passing ⟨hs, trivial⟩ fun w₁ v s₁ _ hs₁ _ => ?_
      by_cases htrue : v.truthy = true
      · rw [if_pos htrue]
        exact follows_handing ⟨hs₁, plain_null h w₁⟩
      · rw [if_neg htrue]
        cases d with
        | none => exact follows_alone h hs₁ Eval.giving_null.trying
        | some d => exact follows_handing ⟨hs₁, plain_null h w₁⟩
  | fn params b =>
      refine follows_operation fun v s' hv => ?_
      rcases Prod.mk.inj (Option.some.inj hv) with ⟨rfl, rfl⟩
      exact h.closure hs ha
  | call e es =>
      refine follows_passing ⟨hs, trivial⟩ fun w₁ f s₁ _ hs₁ hf => ?_
      refine follows_listing ⟨hs₁, trivial⟩ fun w₂ vs s₂ hgrows hs₂ hvs => ?_
      -- The function has waited while the arguments were evaluated.
      exact follows_handing ⟨hs₂, hf.mono hgrows, hvs⟩
  | array es =>
      refine follows_listing ⟨hs, trivial⟩ fun w₁ vs s₁ _ hs₁ hvs => ?_
      refine follows_trying h hs₁ (fun v hv => (hvs v hv).1) ?_
      exact (Eval.giving_newArray fun e he => ⟨e, he, .refl e⟩).trying
  | index e f =>
      refine follows_passing ⟨hs, trivial⟩ fun w₁ v s₁ _ hs₁ hv => ?_
      refine follows_passing ⟨hs₁, trivial⟩ fun w₂ u s₂ hgrows hs₂ _ => ?_
      refine follows_trying h hs₂ (fun g hg => ?_) (Eval.trying_index v u)
      exact List.mem_singleton.mp hg ▸ (hv.mono hgrows).1
  | map ps => exact follows_handing ⟨hs, fun _ hslot => absurd hslot List.not_mem_nil⟩

theorem follows_list {es : List Expr} (hs : c.good w s) :
    c.Follows (Point.course ⟨.list es, s⟩) w s := by
  cases es with
  | nil => exact follows_pure hs fun _ hv => nomatch hv
  | cons e es =>
      refine ⟨w, c.refl w, ⟨hs, trivial⟩, fun w₁ a s₁ _ hfound => ?_⟩
      cases a with
      | value v =>
          simp only
          by_cases hstops : v.stops = true
          · rw [if_pos hstops]
            exact follows_pure hfound.1 hfound.2
          · rw [if_neg hstops]
            exact follows_collecting ⟨hfound.2, Bool.eq_false_iff.mpr hstops⟩ ⟨hfound.1, trivial⟩
      | list _ | done => exact follows_tooDeep

theorem follows_pairs (h : c.Followed) {slots : List (Slot Value)} {ps : List (Expr × Expr)}
    (hs : c.good w s) (hslots : ∀ slot ∈ slots, c.Plain w slot.key ∧ c.Plain w slot.value) :
    c.Follows (Point.course ⟨.pairs slots ps, s⟩) w s := by
  cases ps with
  | nil =>
      have hfine : ∀ g ∈ slots.map Slot.key ++ slots.map Slot.value, c.fine w g := by
        intro g hg
        rcases List.mem_append.mp hg with hg | hg
        · rcases List.mem_map.mp hg with ⟨slot, hslot, rfl⟩
          exact (hslots slot hslot).1.1
        · rcases List.mem_map.mp hg with ⟨slot, hslot, rfl⟩
          exact (hslots slot hslot).2.1
      have hmap : Eval.Giving (slots.map Slot.key ++ slots.map Slot.value) (Eval.newMap slots) :=
        Eval.giving_newMap (fun slot hslot => List.mem_append_left _ (List.mem_map_of_mem hslot))
          fun slot hslot => List.mem_append_right _ (List.mem_map_of_mem hslot)
      exact follows_trying h hs hfine hmap.trying
  | cons p ps =>
      refine follows_passing ⟨hs, trivial⟩ fun w₁ k s₁ hgrows₁ hs₁ hk => ?_
      cases hhash : k.hashKey? with
      | none =>
          simp only
          exact follows_alone h hs₁ (Eval.trying_newError _)
      | some hash =>
          simp only
          refine follows_passing ⟨hs₁, trivial⟩ fun w₂ v s₂ hgrows₂ hs₂ hv => ?_
          refine follows_handing ⟨hs₂, fun slot hslot => ?_⟩
          -- The slots that were there have waited for both halves of the pair.
          rcases Slots.mem_insert hslot with rfl | hslot
          · exact ⟨hk.mono hgrows₂, hv⟩
          · exact ⟨((hslots slot hslot).1.mono hgrows₁).mono hgrows₂,
              ((hslots slot hslot).2.mono hgrows₁).mono hgrows₂⟩

theorem follows_stmt (h : c.Followed) {st : Stmt} (hs : c.good w s) :
    c.Follows (Point.course ⟨.stmt st, s⟩) w s := by
  cases st with
  | bind name e =>
      refine follows_passing ⟨hs, trivial⟩ fun w₁ v s₁ _ hs₁ hv => ?_
      refine follows_operation fun u s₂ hu => ?_
      rcases Prod.mk.inj (Option.some.inj hu) with ⟨rfl, rfl⟩
      exact ⟨w₁, c.refl w₁, h.bind hs₁ hv, h.null w₁⟩
  | ret e =>
      refine follows_passing ⟨hs, trivial⟩ fun w₁ v s₁ _ hs₁ hv => ?_
      refine follows_operation fun u s₂ hu => ?_
      rcases Prod.mk.inj (Option.some.inj hu) with ⟨rfl, rfl⟩
      -- A wrapping holds the value that it takes along, and nothing else.
      refine h.made hs₁ rfl ⟨nofun, rfl⟩ fun u hu => ?_
      cases hu with
      | refl => exact .inl rfl
      | inner hu => exact .inr (h.inside hv.1 hu)
  | expr e => exact follows_handing ⟨hs, trivial⟩

theorem follows_block {last : Value} {ss : List Stmt} (hs : c.good w s) (hlast : c.Plain w last) :
    c.Follows (Point.course ⟨.block last ss, s⟩) w s := by
  cases ss with
  | nil => exact follows_pure hs hlast.1
  | cons st ss =>
      exact follows_passing ⟨hs, trivial⟩ fun w₁ v s₁ _ hs₁ hv => follows_handing ⟨hs₁, hv⟩

theorem follows_call (h : c.Followed) {f : Value} {args : List Value} (hs : c.good w s)
    (hf : c.Plain w f) (hargs : ∀ v ∈ args, c.Plain w v) (ha : c.allowed ⟨.call f args, s⟩) :
    c.Follows (Point.course ⟨.call f args, s⟩) w s := by
  by_cases hfn : ∃ id params b outer, f = .fn id params b outer ∧ args.length = params.length
  · rcases hfn with ⟨id, params, b, outer, rfl, hlen⟩
    simp only [Point.course, if_pos hlen]
    rcases h.enters hs hf.1 hargs ha with ⟨w₁, hgrows₁, hs₁⟩
    refine ⟨w₁, hgrows₁, ⟨hs₁, plain_null h w₁⟩, fun w₂ a s₂ hgrows₂ hfound => ?_⟩
    cases a with
    | value v =>
        refine follows_operation fun u s₃ hu => ?_
        rcases Prod.mk.inj (Option.some.inj hu) with ⟨rfl, rfl⟩
        -- The caller's store was good when less was known, and that is enough to come back.
        refine ⟨w₂, c.refl w₂, h.leaves hs (c.trans hgrows₁ hgrows₂) hfound.1, ?_⟩
        cases v with
        | returned id inner => exact h.inside hfound.2 (.inner (.refl inner))
        | _ => exact hfound.2
    | list _ | done => exact follows_tooDeep
  · have hsimple : Eval.Trying args (Eval.call (Eval.body 0) f args) :=
      Eval.trying_call fun id params b outer heq hlen => hfn ⟨id, params, b, outer, heq, hlen⟩
    have hfollows := follows_trying h hs (fun v hv => (hargs v hv).1) hsimple
    cases f with
    | fn id params b outer =>
        have hlen : args.length ≠ params.length := fun hlen => hfn ⟨id, params, b, outer, rfl, hlen⟩
        rw [Eval.call_fn_of_length _ id b outer hlen] at hfollows
        simp only [Point.course, if_neg hlen]
        exact hfollows
    | _ => exact hfollows

theorem follows_statements (h : c.Followed) {ss : Block} (hs : c.good w s) :
    c.Follows (Point.course ⟨.statements ss, s⟩) w s := by
  cases ss with
  | nil => exact follows_pure hs trivial
  | cons st ss =>
      refine ⟨w, c.refl w, ⟨hs, trivial⟩, fun w₁ a s₁ _ hfound => ?_⟩
      cases a with
      | value v =>
          cases v with
          | returned _ _ => exact follows_pure hfound.1 trivial
          | error id cause =>
              intro a s₂ hresult
              rcases Prod.mk.inj (Option.some.inj hresult) with ⟨rfl, rfl⟩
              exact ⟨w₁, c.refl w₁, h.stopped hfound.1, trivial⟩
          | _ => exact follows_handing ⟨hfound.1, trivial⟩
      | list _ | done => exact follows_tooDeep

/-- The course of a part keeps to the chronicle. -/
theorem follows (h : c.Followed) {p : Point} (hp : c.Ready w p) (ha : c.allowed p) :
    c.Follows p.course w p.store := by
  rcases p with ⟨t, s⟩
  rcases hp with ⟨hs, hvalues⟩
  cases t with
  | expr e => exact follows_expr h hs ha
  | list es => exact follows_list hs
  | pairs slots ps => exact follows_pairs h hs hvalues
  | stmt st => exact follows_stmt h hs
  | block last ss => exact follows_block hs hvalues
  | call f args => exact follows_call h hs hvalues.1 hvalues.2 ha
  | statements ss => exact follows_statements h hs

end Forms

/-- What a part begins may begin. -/
theorem allowed_begins (h : c.Followed) {p q : Point} (hp : c.Ready w p) (ha : c.allowed p)
    (hq : Begins p q) : c.allowed q := by
  by_cases hcall : ∃ f args, p.task = .call f args
  · rcases p with ⟨t, s⟩
    rcases hcall with ⟨f, args, rfl⟩
    cases hq with
    | body hlen => exact h.body hp.1 hp.2.1.1 hlen ha
  · exact h.part ha hq fun f args heq => hcall ⟨f, args, heq⟩

theorem allowed_asks (h : c.Followed) {p : Point} (hp : c.Ready w p) (ha : c.allowed p) :
    ∀ q, p.course.Asks q → c.allowed q :=
  fun _ hq => allowed_begins h hp ha (begins_iff.mpr hq)

/-- All that happens in a part fits with what is known. -/
structure Knows (c : Chronicle W) (w : W) (p : Point) : Prop where
  /-- The part may begin. -/
  allowed : c.allowed p
  /-- It began as it should when less was known. -/
  ready : ∃ w₀, c.grows w₀ w ∧ c.Ready w₀ p
  /-- It ended as it should when less was known, if it has ended. -/
  found : ∀ a s', p.Comes a s' → ∃ w₁, c.grows w₁ w ∧ c.Found w₁ s' a

theorem Knows.mono {p : Point} (h : c.Knows w p) (hgrows : c.grows w w') : c.Knows w' p where
  allowed := h.allowed
  ready := by
    rcases h.ready with ⟨w₀, hgrows₀, hready⟩
    exact ⟨w₀, c.trans hgrows₀ hgrows, hready⟩
  found a s' ha := by
    rcases h.found a s' ha with ⟨w₁, hgrows₁, hfound⟩
    exact ⟨w₁, c.trans hgrows₁ hgrows, hfound⟩

/-- When a part has ended, everything that happened in it is known. -/
def Learns (c : Chronicle W) (p : Point) : Prop :=
  ∀ w a s', c.Ready w p → c.allowed p → p.Comes a s' →
    ∃ w', c.grows w w' ∧ c.Found w' s' a ∧ ∀ q, Within p q → c.Knows w' q

/-- A course that has come to its end has taught all there was to learn in the
    parts that it asked for. -/
theorem Follows.learns {k : Course} {a : Finding} (hleads : k.Leads s a s') :
    ∀ {w}, c.Follows k w s → (∀ q, k.Asks q → c.allowed q ∧ c.Learns q) →
      ∃ w', c.grows w w' ∧ c.Found w' s' a ∧
        ∀ q, k.Asks q → ∀ r, Within q r → c.Knows w' r := by
  induction hleads with
  | ends h =>
      intro w hfollows _
      rcases hfollows _ _ h with ⟨w', hgrows, hfound⟩
      exact ⟨w', hgrows, hfound, fun q hq => (Course.not_asks_ends hq).elim⟩
  | @begins q next s s₁ s' a b hb _ ih =>
      intro w hfollows hasks
      rcases hfollows with ⟨w₀, hgrows₀, hready, hnext⟩
      rcases hasks q .here with ⟨hallowed, hlearns⟩
      rcases hlearns w₀ b s₁ hready hallowed hb with ⟨w₁, hgrows₁, hfound₁, hknows₁⟩
      rcases ih (hnext w₁ b s₁ hgrows₁ hfound₁) (fun r hr => hasks r (.later hb hr)) with
        ⟨w', hgrows', hfound', hknows'⟩
      refine ⟨w', c.trans (c.trans hgrows₀ hgrows₁) hgrows', hfound', fun r hr => ?_⟩
      cases hr with
      | here => exact fun t ht => (hknows₁ t ht).mono hgrows'
      | later hb' hr =>
          -- The first part comes to one thing only.
          rcases hb.unique hb' with ⟨rfl, rfl⟩
          exact hknows' r hr

/-- A part that ends has taught all there was to learn in it. -/
theorem learns (h : c.Followed) {p : Point} (hp : Acc (fun q p => Begins p q) p) :
    c.Learns p := by
  induction hp with
  | intro p _ ih =>
      intro w a s' hready hallowed ha
      have hasks : ∀ q, p.course.Asks q → c.allowed q ∧ c.Learns q := fun q hq =>
        ⟨allowed_asks h hready hallowed q hq, ih q (begins_iff.mpr hq)⟩
      rcases (follows h hready hallowed).learns (Point.leads_course ha) hasks with
        ⟨w', hgrows, hfound, hknows⟩
      refine ⟨w', hgrows, hfound, fun q hq => ?_⟩
      rcases Relation.ReflTransGen.cases_head hq with rfl | ⟨r, hr, hwithin⟩
      · refine ⟨hallowed, ⟨w, hgrows, hready⟩, fun b t hb => ?_⟩
        rcases ha.unique hb with ⟨rfl, rfl⟩
        exact ⟨w', c.refl w', hfound⟩
      · exact hknows r (begins_iff.mp hr) q hwithin

/-- Whichever part a course asks for, it begins as it should. -/
theorem Follows.ready (hlearns : ∀ {q a s'}, q.Comes a s' → c.Learns q) {k : Course} {q : Point}
    (hq : k.Asks q) : ∀ {w s}, c.Follows k w s → (∀ r, k.Asks r → c.allowed r) →
      ∃ w', c.grows w w' ∧ c.Ready w' q := by
  induction hq with
  | here =>
      intro w s hfollows _
      rcases hfollows with ⟨w₀, hgrows₀, hready, -⟩
      exact ⟨w₀, hgrows₀, hready⟩
  | @later q r next b s₁ hb hr ih =>
      intro w s hfollows hallowed
      rcases hfollows with ⟨w₀, hgrows₀, hready, hnext⟩
      rcases hlearns hb w₀ b s₁ hready (hallowed q .here) hb with ⟨w₁, hgrows₁, hfound₁, -⟩
      rcases ih (hnext w₁ b s₁ hgrows₁ hfound₁) (fun t ht => hallowed t (.later hb ht)) with
        ⟨w', hgrows', hready'⟩
      exact ⟨w', c.trans (c.trans hgrows₀ hgrows₁) hgrows', hready'⟩

/-- Of two parts that a course asks for, one has ended before the other one
    begins, and then all that happened in it is known already. -/
theorem Follows.ready_both (hlearns : ∀ {q a s'}, q.Comes a s' → c.Learns q) {k : Course}
    {q r : Point} (hq : k.Asks q) : k.Asks r → ∀ {w s}, c.Follows k w s →
      (∀ t, k.Asks t → c.allowed t) →
        ∃ w', c.grows w w' ∧ (q = r ∧ c.Ready w' q ∨
          (∀ t, Within q t → c.Knows w' t) ∧ c.Ready w' r ∨
          (∀ t, Within r t → c.Knows w' t) ∧ c.Ready w' q) := by
  induction hq with
  | @here q next =>
      intro hr w s hfollows hallowed
      rcases hfollows with ⟨w₀, hgrows₀, hready, hnext⟩
      cases hr with
      | here => exact ⟨w₀, hgrows₀, .inl ⟨rfl, hready⟩⟩
      | @later _ _ _ b s₁ hb hr =>
          rcases hlearns hb w₀ b s₁ hready (hallowed q .here) hb with
            ⟨w₁, hgrows₁, hfound₁, hknows₁⟩
          rcases (hnext w₁ b s₁ hgrows₁ hfound₁).ready hlearns hr
            (fun t ht => hallowed t (.later hb ht)) with ⟨w', hgrows', hready'⟩
          exact ⟨w', c.trans (c.trans hgrows₀ hgrows₁) hgrows',
            .inr (.inl ⟨fun t ht => (hknows₁ t ht).mono hgrows', hready'⟩)⟩
  | @later x q next b s₁ hb hq ih =>
      intro hr w s hfollows hallowed
      rcases hfollows with ⟨w₀, hgrows₀, hready, hnext⟩
      rcases hlearns hb w₀ b s₁ hready (hallowed x .here) hb with
        ⟨w₁, hgrows₁, hfound₁, hknows₁⟩
      have hfollows₁ := hnext w₁ b s₁ hgrows₁ hfound₁
      have hallowed₁ : ∀ t, (next b s₁).Asks t → c.allowed t :=
        fun t ht => hallowed t (.later hb ht)
      cases hr with
      | here =>
          rcases hfollows₁.ready hlearns hq hallowed₁ with ⟨w', hgrows', hready'⟩
          exact ⟨w', c.trans (c.trans hgrows₀ hgrows₁) hgrows',
            .inr (.inr ⟨fun t ht => (hknows₁ t ht).mono hgrows', hready'⟩)⟩
      | later hb' hr =>
          rcases hb.unique hb' with ⟨rfl, rfl⟩
          rcases ih hr hfollows₁ hallowed₁ with ⟨w', hgrows', hcases⟩
          exact ⟨w', c.trans (c.trans hgrows₀ hgrows₁) hgrows', hcases⟩

/-- A part is known when it has begun, or else when it has ended. -/
theorem knows_self (h : c.Followed) {p : Point} (hp : c.Ready w p) (ha : c.allowed p) :
    ∃ w', c.grows w w' ∧ c.Knows w' p := by
  by_cases hends : ∃ a s', p.Comes a s'
  · rcases hends with ⟨a, s', hcomes⟩
    rcases learns h hcomes.acc w a s' hp ha hcomes with ⟨w', hgrows, -, hknows⟩
    exact ⟨w', hgrows, hknows p .refl⟩
  · exact ⟨w, c.refl w, ha, ⟨w, c.refl w, hp⟩, fun a s' hcomes => absurd ⟨a, s', hcomes⟩ hends⟩

/-- Any part of a part begins as it should, when more is known. -/
theorem ready_within (h : c.Followed) {p q : Point} (hp : c.Ready w p) (ha : c.allowed p)
    (hq : Within p q) : ∃ w', c.grows w w' ∧ c.Ready w' q ∧ c.allowed q := by
  induction hq with
  | refl => exact ⟨w, c.refl w, hp, ha⟩
  | tail _ hr ih =>
      rcases ih with ⟨w₁, hgrows₁, hready₁, hallowed₁⟩
      have hallowed := allowed_asks h hready₁ hallowed₁
      rcases (follows h hready₁ hallowed₁).ready (fun hcomes => learns h hcomes.acc)
        (begins_iff.mp hr) hallowed with ⟨w', hgrows', hready'⟩
      exact ⟨w', c.trans hgrows₁ hgrows', hready', hallowed _ (begins_iff.mp hr)⟩

/-- Any part of a part is known at some time. -/
theorem knows (h : c.Followed) {p q : Point} (hq : Within p q) (hp : c.Ready w p)
    (ha : c.allowed p) : ∃ w', c.grows w w' ∧ c.Knows w' q := by
  rcases ready_within h hp ha hq with ⟨w₁, hgrows₁, hready, hallowed⟩
  rcases knows_self h hready hallowed with ⟨w', hgrows', hknows⟩
  exact ⟨w', c.trans hgrows₁ hgrows', hknows⟩

/-- So it is together with any part of it. -/
theorem knows_self_and (h : c.Followed) {p q : Point} (hp : c.Ready w p) (ha : c.allowed p)
    (hq : Within p q) : ∃ w', c.grows w w' ∧ c.Knows w' p ∧ c.Knows w' q := by
  by_cases hends : ∃ a s', p.Comes a s'
  · rcases hends with ⟨a, s', hcomes⟩
    rcases learns h hcomes.acc w a s' hp ha hcomes with ⟨w', hgrows, -, hknows⟩
    exact ⟨w', hgrows, hknows p .refl, hknows q hq⟩
  · -- A part that goes on forever is known as soon as it has begun.
    rcases knows h hq hp ha with ⟨w', hgrows, hknows⟩
    exact ⟨w', hgrows, ⟨ha, ⟨w, hgrows, hp⟩, fun a s' hcomes => absurd ⟨a, s', hcomes⟩ hends⟩,
      hknows⟩

/-- Any two parts of a part are known at some time, both of them. -/
theorem knows_both (h : c.Followed) {p q r : Point} (hq : Within p q) :
    ∀ {w}, Within p r → c.Ready w p → c.allowed p →
      ∃ w', c.grows w w' ∧ c.Knows w' q ∧ c.Knows w' r := by
  induction hq using Relation.ReflTransGen.head_induction_on with
  | refl => exact fun hr hp ha => knows_self_and h hp ha hr
  | @head p q' hq' hwithin ih =>
      intro w hr hp ha
      rcases Relation.ReflTransGen.cases_head hr with rfl | ⟨r', hr', hwithin'⟩
      · rcases knows_self_and h hp ha (hwithin.head hq') with ⟨w', hgrows, hr, hq⟩
        exact ⟨w', hgrows, hq, hr⟩
      · have hallowed := allowed_asks h hp ha
        rcases (follows h hp ha).ready_both (fun hcomes => learns h hcomes.acc) (begins_iff.mp hq')
          (begins_iff.mp hr') hallowed with
          ⟨w₁, hgrows₁, ⟨rfl, hready⟩ | ⟨hknows, hready⟩ | ⟨hknows, hready⟩⟩
        · rcases ih hwithin' hready (hallowed _ (begins_iff.mp hq')) with ⟨w', hgrows', hboth⟩
          exact ⟨w', c.trans hgrows₁ hgrows', hboth⟩
        · rcases Chronicle.knows h hwithin' hready (hallowed _ (begins_iff.mp hr')) with
            ⟨w', hgrows', hr⟩
          exact ⟨w', c.trans hgrows₁ hgrows', (hknows q hwithin).mono hgrows', hr⟩
        · rcases Chronicle.knows h hwithin hready (hallowed _ (begins_iff.mp hq')) with
            ⟨w', hgrows', hq⟩
          exact ⟨w', c.trans hgrows₁ hgrows', hq, (hknows r hwithin').mono hgrows'⟩

end Chronicle

end Monkey
