import Monkey.Proofs.Evaluation.Clean
import Monkey.Proofs.Evaluation.Exits
import Monkey.Session

/-!
# Values That Stop are Exits

The evaluator and the evaluation with exits are the same.

The evaluator asks of each value whether it stops. If it asks everywhere, and
nothing but a fresh exit ever makes it stop, then it does what exits do by
themselves. The second condition is where clean stores come in: an error that
was kept under a name would stop the evaluator each time the name is used,
though nothing has failed. That a clean store stays clean therefore belongs to
the invariant of the induction.

`Agrees` compares an evaluation with an evaluation that can be left, from one
store. Both may have no result; otherwise they leave the same store behind,
the store is clean, and the value of the one encodes how the other one ended.
The two loops over statements and the call of a function encode differently,
so `Agrees` takes the encoding as a parameter.

The limit on nested calls is the same on both sides. Whether a program has a
result does not depend on which of the two evaluates it, at any limit.

## Main definitions

* `Encodes`: A value stands for the way in which an evaluation ended.
* `Agrees`: An evaluation does what one with exits does.

## Theorems

* `Agrees.bind`, `Agrees.unlessStopped`: One evaluation after another.
* `agrees_attempt`: Operations that may make an error.
* `agrees_call`: Calls.
* `expr_agrees`, `stmt_agrees`, `block_agrees`: Syntax.
* `program_eq_exits`: Programs.
-/

namespace Monkey

namespace Exits

/-- A value stands for the way in which an evaluation ended. -/
inductive Encodes : Value → Except Exit Value → Prop where
  /-- It has a value. -/
  | plain {v : Value} (h : v.Clean) : Encodes v (.ok v)
  /-- It was left with a value, which is wrapped. -/
  | returned (id : ObjectId) {v : Value} (h : v.Clean) :
    Encodes (.returned id v) (.error (.returned v))
  /-- It was left with an error. -/
  | failed (id : ObjectId) (cause : RuntimeError) :
    Encodes (.error id cause) (.error (.failed id cause))

/-- The values of a list, or a value that stands for the way in which the
    evaluation of the list was left. -/
inductive EncodesList : Except Value (List Value) → Except Exit (List Value) → Prop where
  | plain {vs : List Value} (h : ∀ v ∈ vs, v.Clean) : EncodesList (.ok vs) (.ok vs)
  | left {v : Value} {exit : Exit} (h : Encodes v (.error exit)) :
    EncodesList (.error v) (.error exit)

/-- What stands for an exit makes the evaluator stop. -/
theorem Encodes.stops {v : Value} {exit : Exit} (h : Encodes v (.error exit)) : v.stops = true := by
  cases h <;> rfl

variable {α β γ δ : Type} {s : Store}

/-- From a store, an evaluation does what one with exits does. -/
def Agrees (Rel : α → Except Exit β → Prop) (s : Store) (m : Eval α) (r : Run β) : Prop :=
  m s = none ∧ r.run s = none ∨
    ∃ a ended s', m s = some (a, s') ∧ r.run s = some (ended, s') ∧ s'.Clean ∧ Rel a ended

theorem agrees_pure {Rel : α → Except Exit β → Prop} {a : α} {b : β} (hs : s.Clean)
    (h : Rel a (.ok b)) : Agrees Rel s (pure a) (pure b) :=
  .inr ⟨a, .ok b, s, rfl, rfl, hs, h⟩

theorem agrees_throw {Rel : α → Except Exit β → Prop} {a : α} {exit : Exit} (hs : s.Clean)
    (h : Rel a (.error exit)) : Agrees Rel s (pure a) (throw exit) :=
  .inr ⟨a, .error exit, s, rfl, rfl, hs, h⟩

/-- What comes behind an exit is skipped. -/
theorem run_bind (r : Run α) (g : α → Run β) (s : Store) :
    (r >>= g).run s = (r.run s).bind fun p =>
      match p.1 with
      | .ok a => (g a).run p.2
      | .error exit => some (.error exit, p.2) := by
  change (r.run s).bind _ = _
  cases r.run s with
  | none => rfl
  | some p =>
      rcases p with ⟨ended, s'⟩
      cases ended <;> rfl

/-- An evaluation of the store alone is never left. -/
theorem run_lift (m : Eval α) (s : Store) :
    (liftM m : Run α).run s = (m s).map fun p => (.ok p.1, p.2) := by
  change (m s).bind _ = _
  cases m s <;> rfl

theorem run_attempt (m : Eval Value) (s : Store) :
    (attempt m).run s = (m s).map fun p =>
      (match p.1 with
        | .error id cause => .error (.failed id cause)
        | v => .ok v, p.2) := by
  unfold attempt
  rw [run_bind, run_lift]
  cases m s with
  | none => rfl
  | some p =>
      rcases p with ⟨v, s'⟩
      cases v <;> rfl

/-- One evaluation after another. Where the first one was left, the second one
    is skipped on the side of exits and has to hand on what it gets on the
    other side. -/
theorem Agrees.bind {Rel : α → Except Exit β → Prop} {Rel' : γ → Except Exit δ → Prop}
    {m : Eval α} {r : Run β} {f : α → Eval γ} {g : β → Run δ} (h : Agrees Rel s m r)
    (hok : ∀ a b s', s'.Clean → Rel a (.ok b) → Agrees Rel' s' (f a) (g b))
    (hexit : ∀ a exit s', s'.Clean → Rel a (.error exit) → Agrees Rel' s' (f a) (throw exit)) :
    Agrees Rel' s (m >>= f) (r >>= g) := by
  have hfirst : (m >>= f) s = (m s).bind fun p => f p.1 p.2 := rfl
  rcases h with ⟨hm, hr⟩ | ⟨a, ended, s', hm, hr, hs', hrel⟩
  · refine .inl ⟨?_, ?_⟩
    · rw [hfirst, hm, Option.bind_none]
    · rw [run_bind, hr, Option.bind_none]
  · unfold Agrees
    rw [hfirst, run_bind, hm, hr, Option.bind_some, Option.bind_some]
    cases ended with
    | ok b => exact hok a b s' hs' hrel
    | error exit => exact hexit a exit s' hs' hrel

/-- Asking whether a value stops does what exits do by themselves. -/
theorem Agrees.unlessStopped {m : Eval Value} {r : Run Value} {f : Value → Eval Value}
    {g : Value → Run Value} (h : Agrees Encodes s m r)
    (hf : ∀ v s', s'.Clean → v.Clean → Agrees Encodes s' (f v) (g v)) :
    Agrees Encodes s (m.unlessStopped f) (r >>= g) := by
  refine h.bind (fun v w s' hs' hrel => ?_) (fun v exit s' hs' hrel => ?_)
  · -- A value that came about without an exit is clean, so the question is answered with no.
    cases hrel with
    | plain hv =>
        rw [hv.stops]
        exact hf v s' hs' hv
  · rw [if_pos hrel.stops]
    exact agrees_throw hs' hrel

/-- What to do with the values of a list, if there are all of them. -/
theorem Agrees.unlessLeft {m : Eval (Except Value (List Value))} {r : Run (List Value)}
    {f : Except Value (List Value) → Eval Value} {g : List Value → Run Value}
    (h : Agrees EncodesList s m r) (hleft : ∀ v, f (.error v) = pure v)
    (hf : ∀ vs s', s'.Clean → (∀ v ∈ vs, v.Clean) → Agrees Encodes s' (f (.ok vs)) (g vs)) :
    Agrees Encodes s (m >>= f) (r >>= g) := by
  refine h.bind (fun found vs s' hs' hrel => ?_) (fun found exit s' hs' hrel => ?_)
  · cases hrel with
    | plain hvs => exact hf vs s' hs' hvs
  · cases hrel with
    | left hv =>
        rw [hleft]
        exact agrees_throw hs' hv

/-- An operation that yields a clean value or makes an error. -/
theorem agrees_attempt {m : Eval Value} (h : Eval.Answers s m) :
    Agrees Encodes s m (attempt m) := by
  unfold Agrees
  rw [run_attempt]
  cases hm : m s with
  | none => exact .inl ⟨rfl, rfl⟩
  | some p =>
      rcases p with ⟨v, s'⟩
      rcases h v s' hm with ⟨hs', hv⟩
      -- No operation answers with a returned value, so an error is the only exit there is.
      rcases hv with hv | hv
      · refine .inr ⟨v, .ok v, s', rfl, ?_, hs', .plain hv⟩
        cases hv <;> rfl
      · cases v with
        | error id cause => exact .inr ⟨_, _, s', rfl, rfl, hs', .failed id cause⟩
        | _ => exact absurd hv Bool.false_ne_true

/-- An operation that makes a clean object. -/
theorem agrees_new (hs : s.Clean) {f : ObjectId → Value} (hf : ∀ id, (f id).Clean) :
    Agrees Encodes s (Eval.newId >>= fun id => pure (f id))
      (liftM (Eval.newId >>= fun id => pure (f id)) : Run Value) :=
  .inr ⟨f s.nextId, .ok (f s.nextId), _, rfl, rfl, hs.of_eq rfl, .plain (hf s.nextId)⟩

theorem agrees_fail (hs : s.Clean) (cause : RuntimeError) :
    Agrees Encodes s (Eval.newError cause) (fail cause) :=
  .inr ⟨_, _, _, rfl, rfl, hs.of_eq rfl, .failed s.nextId cause⟩

theorem agrees_leave (hs : s.Clean) {v : Value} (hv : v.Clean) :
    Agrees Encodes s (Eval.newReturned v) (leave v) :=
  .inr ⟨_, _, _, rfl, rfl, hs.of_eq rfl, .returned s.nextId hv⟩

/-- A call is a run of the body from the store in which it starts, and a move
    back to the scope that was current before. -/
theorem run_call_fn (run : Block → Run Value) (id : ObjectId) {params : List String} (body : Block)
    (outer : ScopeId) {args : List Value} (hlen : args.length = params.length) (s : Store) :
    (call run (.fn id params body outer) args).run s =
      ((run body).run (s.calling outer (params.zip args))).bind fun p =>
        (land p.1).run (p.2.enter s.current) := by
  have hget : ∀ t : Store, (get : Run Store).run t = some (.ok t, t) := fun _ => rfl
  unfold call
  simp only [if_pos hlen, run_bind, run_lift, hget, Eval.bindAll_eq, Eval.openScope, Eval.record,
    Eval.enter, Option.map_some, Option.bind_some, Store.setAll_current]
  change (((run body).run (s.calling outer (params.zip args))).bind _).bind _ = _
  cases (run body).run (s.calling outer (params.zip args)) <;> rfl

section

variable {run : BodyRunner} {run' : Block → Run Value}

/-- A call of a builtin. It runs no body, and it never leaves by itself: what it
    refuses is made an error by the call. -/
theorem agrees_builtin (hs : s.Clean) (id : ObjectId) (b : Builtin) {args : List Value}
    (hargs : ∀ v ∈ args, v.Clean) :
    Agrees Encodes s (Eval.call run (.builtin id b) args) (call run' (.builtin id b) args) := by
  have hstart : Agrees (fun answer ended => ended = .ok answer ∧ ∀ v, answer = .ok v → v.Clean) s
      (b.apply args) (liftM (b.apply args) : Run Builtin.Answer) := by
    unfold Agrees
    rw [run_lift]
    cases hresult : b.apply args s with
    | none => exact .inl ⟨rfl, rfl⟩
    | some p =>
        rcases Builtin.apply_clean hs b hargs hresult with ⟨hs', hclean⟩
        exact .inr ⟨p.1, _, p.2, rfl, rfl, hs', rfl, hclean⟩
  refine hstart.bind (fun answer answer' s' hs' h => ?_) (fun answer exit s' _ h => ?_)
  · rcases h with ⟨heq, hclean⟩
    cases heq
    cases answer with
    | ok v => exact agrees_pure hs' (.plain (hclean v rfl))
    | error cause => exact agrees_fail hs' cause
  · exact absurd h.1 (by simp only [reduceCtorEq, not_false_eq_true])

/-- A call of a function with as many arguments as it has parameters. -/
theorem agrees_call_fn (hrun : ∀ s body, s.Clean → Agrees Encodes s (run body) (run' body))
    (hs : s.Clean) (id : ObjectId) {params : List String} (body : Block)
    (outer : ScopeId) {args : List Value} (hlen : args.length = params.length)
    (hargs : ∀ v ∈ args, v.Clean) :
    Agrees Encodes s (Eval.call run (.fn id params body outer) args)
      (call run' (.fn id params body outer) args) := by
  unfold Agrees
  rw [Eval.call_fn run id body outer hlen, run_call_fn run' id body outer hlen]
  -- However the body ends, both sides move back to the caller's scope before they look at it.
  rcases hrun _ body (hs.calling outer params hargs) with ⟨hm, hr⟩ | ⟨v, ended, s', hm, hr, hs', hv⟩
  · rw [hm, hr]
    exact .inl ⟨rfl, rfl⟩
  · rw [hm, hr]
    have hback : (s'.enter s.current).Clean := hs'.of_eq rfl
    cases hv with
    | plain hv =>
        refine .inr ⟨v, .ok v, s'.enter s.current, ?_, rfl, hback, .plain hv⟩
        cases hv <;> rfl
    | returned id hv => exact .inr ⟨_, _, s'.enter s.current, rfl, rfl, hback, .plain hv⟩
    | failed id cause => exact .inr ⟨_, _, s'.enter s.current, rfl, rfl, hback, .failed id cause⟩

theorem agrees_call (hrun : ∀ s body, s.Clean → Agrees Encodes s (run body) (run' body))
    (hs : s.Clean) {f : Value} (hf : f.Clean) {args : List Value}
    (hargs : ∀ v ∈ args, v.Clean) :
    Agrees Encodes s (Eval.call run f args) (call run' f args) := by
  cases hf with
  | fn id params body outer =>
      by_cases hlen : args.length = params.length
      · exact agrees_call_fn hrun hs id body outer hlen hargs
      · unfold Eval.call call
        simp only [if_neg hlen]
        exact agrees_fail hs _
  | builtin id b => exact agrees_builtin hs id b hargs
  | _ => exact agrees_fail hs _

mutual

/-- Expressions do what exits do. -/
theorem expr_agrees (hrun : ∀ s body, s.Clean → Agrees Encodes s (run body) (run' body)) :
    ∀ (e : Expr) (s : Store), s.Clean → Agrees Encodes s (e.eval run) (expr run' e)
  | .ident name, _, hs => agrees_attempt ((Eval.trying_ident name).answers_alone hs)
  | .int n, _, hs => agrees_new hs fun id => .int id n
  | .str contents, _, hs => agrees_new hs fun id => .str id contents
  | .bool b, _, hs => agrees_pure hs (.plain (.bool b))
  | .unary op operand, s, hs =>
    (expr_agrees hrun operand s hs).unlessStopped fun v _ hs' _ =>
      agrees_attempt ((Eval.trying_unary op v).answers_alone hs')
  | .binary op left right, s, hs =>
    (expr_agrees hrun left s hs).unlessStopped fun v s₁ hs₁ _ =>
      (expr_agrees hrun right s₁ hs₁).unlessStopped fun w _ hs₂ _ =>
        agrees_attempt ((Eval.trying_binary op v w).answers_alone hs₂)
  | .cond test consequence none, s, hs =>
    (expr_agrees hrun test s hs).unlessStopped fun v s' hs' _ => by
      split
      · exact block_agrees hrun consequence .null s' hs' .null
      · exact agrees_pure hs' (.plain .null)
  | .cond test consequence (some alternative), s, hs =>
    (expr_agrees hrun test s hs).unlessStopped fun v s' hs' _ => by
      split
      · exact block_agrees hrun consequence .null s' hs' .null
      · exact block_agrees hrun alternative .null s' hs' .null
  | .fn params body, s, hs => agrees_new hs fun id => .fn id params body s.current
  | .call callee args, s, hs =>
    (expr_agrees hrun callee s hs).unlessStopped fun f s₁ hs₁ hf =>
      (list_agrees hrun args s₁ hs₁).unlessLeft (fun _ => rfl) fun vs _ hs₂ hvs =>
        agrees_call hrun hs₂ hf hvs
  | .array elements, s, hs =>
    (list_agrees hrun elements s hs).unlessLeft (fun _ => rfl) fun vs _ hs' hvs =>
      agrees_new hs' fun id => .array id hvs
  | .index base key, s, hs =>
    (expr_agrees hrun base s hs).unlessStopped fun v s₁ hs₁ hv =>
      (expr_agrees hrun key s₁ hs₁).unlessStopped fun w _ hs₂ _ =>
        agrees_attempt (Eval.answers_index hs₂ hv w)
  | .map ps, s, hs =>
    pairs_agrees hrun ps [] s hs (fun _ h => absurd h List.not_mem_nil)
      (fun _ h => absurd h List.not_mem_nil)

/-- Lists of expressions do what exits do. -/
theorem list_agrees (hrun : ∀ s body, s.Clean → Agrees Encodes s (run body) (run' body)) :
    ∀ (es : List Expr) (s : Store), s.Clean →
      Agrees EncodesList s (Expr.evalList run es) (exprs run' es)
  | [], _, hs => agrees_pure hs (.plain fun _ h => absurd h List.not_mem_nil)
  | e :: es, s, hs =>
    (expr_agrees hrun e s hs).bind
      (fun v w s₁ hs₁ hv => by
        cases hv with
        | plain hv =>
            rw [hv.stops]
            refine (list_agrees hrun es s₁ hs₁).bind (fun found vs s₂ hs₂ hfound => ?_)
              (fun found exit s₂ hs₂ hfound => ?_)
            · cases hfound with
              | plain hvs =>
                  refine agrees_pure hs₂ (.plain fun w hw => ?_)
                  rcases List.mem_cons.mp hw with rfl | hw
                  · exact hv
                  · exact hvs w hw
            · cases hfound with
              | left hw => exact agrees_throw hs₂ (.left hw))
      (fun v exit s₁ hs₁ hv => by
        rw [if_pos hv.stops]
        exact agrees_throw hs₁ (.left hv))

/-- The pairs of a map do what exits do. -/
theorem pairs_agrees (hrun : ∀ s body, s.Clean → Agrees Encodes s (run body) (run' body)) :
    ∀ (ps : List (Expr × Expr)) (slots : List (Slot Value)) (s : Store),
    s.Clean → (∀ slot ∈ slots, slot.key.Clean) → (∀ slot ∈ slots, slot.value.Clean) →
      Agrees Encodes s (Expr.evalPairs run slots ps) (pairs run' slots ps)
  | [], slots, _, hs, hkeys, hvalues => agrees_new hs fun id => .map id hkeys hvalues
  | (key, value) :: ps, slots, s, hs, hkeys, hvalues =>
    (expr_agrees hrun key s hs).unlessStopped fun k s₁ hs₁ hk => by
      cases k.hashKey? with
      | none => exact agrees_fail hs₁ _
      | some hash =>
          refine (expr_agrees hrun value s₁ hs₁).unlessStopped fun v s₂ hs₂ hv => ?_
          refine pairs_agrees hrun ps _ s₂ hs₂ (fun slot hslot => ?_) (fun slot hslot => ?_)
          · rcases Slots.mem_insert hslot with rfl | hmem
            · exact hk
            · exact hkeys slot hmem
          · rcases Slots.mem_insert hslot with rfl | hmem
            · exact hv
            · exact hvalues slot hmem

/-- Statements do what exits do. -/
theorem stmt_agrees (hrun : ∀ s body, s.Clean → Agrees Encodes s (run body) (run' body)) :
    ∀ (st : Stmt) (s : Store), s.Clean → Agrees Encodes s (st.eval run) (stmt run' st)
  | .bind name value, s, hs =>
    (expr_agrees hrun value s hs).unlessStopped fun _ s' hs' hv =>
      .inr ⟨.null, .ok .null, _, rfl, rfl, hs'.set s'.current name hv, .plain .null⟩
  | .ret value, s, hs =>
    (expr_agrees hrun value s hs).unlessStopped fun _ _ hs' hv => agrees_leave hs' hv
  | .expr value, s, hs => expr_agrees hrun value s hs

/-- Blocks do what exits do. -/
theorem block_agrees (hrun : ∀ s body, s.Clean → Agrees Encodes s (run body) (run' body)) :
    ∀ (ss : List Stmt) (last : Value) (s : Store), s.Clean → last.Clean →
      Agrees Encodes s (Block.eval run last ss) (block run' last ss)
  | [], _, _, hs, hlast => agrees_pure hs (.plain hlast)
  | st :: ss, _, s, hs, _ =>
    (stmt_agrees hrun st s hs).unlessStopped fun v s' hs' hv => block_agrees hrun ss v s' hs' hv

end

/-- Bodies do what exits do, however deeply calls may nest. -/
theorem body_agrees (limit : Nat) : ∀ (s : Store) (ss : Block), s.Clean →
    Agrees Encodes s (Eval.body limit ss) (body limit ss) := by
  induction limit with
  | zero => exact fun _ _ _ => .inl ⟨rfl, rfl⟩
  | succ limit ih => exact fun s ss hs => block_agrees ih ss .null s hs .null

/-- The loop over the statements of a program ends where exits do. -/
theorem evalFrom_eq (hrun : ∀ s body, s.Clean → Agrees Encodes s (run body) (run' body))
    (ss : Block) : ∀ (last : Option Value) (s : Store), s.Clean →
      Program.evalFrom run last ss s = ((statements run' last ss).run >>= settle) s := by
  induction ss with
  | nil => exact fun _ _ _ => rfl
  | cons st ss ih =>
      intro last s hs
      -- Here the loops differ: one looks at each value, the other is settled once at the end.
      change (st.eval run s).bind _
        = ((stmt run' st >>= fun last => statements run' (some last) ss).run s).bind _
      rw [run_bind]
      rcases stmt_agrees hrun st s hs with ⟨hm, hr⟩ | ⟨_, _, s', hm, hr, hs', hv⟩
      · rw [hm, hr]
        rfl
      · rw [hm, hr]
        cases hv with
        | plain hv => cases hv <;> exact ih _ s' hs'
        | returned id hv => rfl
        | failed id cause => rfl

end

end Exits

/-- From a clean store, the evaluation of a program does what the evaluation
    with exits does: it has a result at the same limits, with the same value,
    the same output and the same scopes. -/
theorem program_eq_exits (limit : Nat) (scope : ScopeId) (program : Block) {s : Store}
    (hs : s.Clean) : Program.eval limit scope program s = Exits.program limit scope program s :=
  Exits.evalFrom_eq (Exits.body_agrees limit) program none (s.enter scope) (hs.of_eq rfl)

/-- A call that is left on both ways: once with a value out of the middle of an
    array, and once with an error that leaves the rest of the program out. -/
def leavingProgram : Block :=
  [.bind "f" (.fn ["x"] [.expr (.array [.call (.ident "puts") [.ident "x"],
      .cond (.ident "x") [.ret (.int 1)] none, .ident "missing"])]),
    .expr (.call (.ident "f") [.bool true]), .expr (.call (.ident "f") [.bool false]),
    .bind "g" (.int 2)]

theorem program_eq_exits_leavingProgram :
    Store.withRoot.2.Clean ∧
      Program.eval 1 0 leavingProgram Store.withRoot.2
        = Exits.program 1 0 leavingProgram Store.withRoot.2 := by
  have h : Store.withRoot.2.Clean := Store.clean_empty.addScope none
  exact ⟨h, program_eq_exits 1 0 leavingProgram h⟩

end Monkey
