import Monkey.Proofs.Evaluation.Discipline
import Monkey.Proofs.Evaluation.Operations

/-!
# What Evaluation Leaves Alone

Evaluation binds names in the current scope and in scopes of its own.

A call moves to another scope, and the body it runs may bind names there, call
other functions and make functions that share the scope. Nothing of this
reaches a scope that existed before, except through the scope that evaluation
takes place in, and a call does not even reach that one: the scope of its body
is new.

The frame of an evaluation cannot be said of the store alone, as a call is
evaluated in one scope and its body in another one. `Store.Frame` therefore
speaks of the scope that was current at the start. For a call the frame of the
body, whose current scope is the new one, says that all older scopes are
untouched, and moving back makes the caller's scope the current one again.
That argument does not ask how the body ended, so it covers errors and
returned values as well.

## Main definitions

* `Store.Frame`: One store comes from another one by evaluation.
* `Discipline.framing`: The discipline that this is.

## Theorems

* `Eval.call_untouched`: A call leaves all scopes alone that are there.
* `Eval.call_enter`: What a call does is the same from everywhere.
* `framing_followed`: The operations keep to the frame.
* `evaluation_frame`: The frame of expressions, statements and calls.
-/

namespace Monkey

/-- What an evaluation may have done to a store. -/
structure Store.Frame (before after : Store) : Prop where
  /-- The current scope is current again. -/
  current : after.current = before.current
  /-- No scope has been removed. -/
  size_le : before.scopes.size ≤ after.scopes.size
  /-- Scopes other than the current one are as they were. -/
  others : ∀ i < before.scopes.size, i ≠ before.current → after.scopes[i]? = before.scopes[i]?
  /-- Every scope is enclosed by what it was enclosed by. -/
  outer : ∀ i < before.scopes.size,
    (after.scopes[i]?).map Scope.outer = (before.scopes[i]?).map Scope.outer

namespace Store.Frame

variable {a b c : Store}

theorem of_eq (hscopes : b.scopes = a.scopes) (hcurrent : b.current = a.current) : a.Frame b :=
  ⟨hcurrent, Nat.le_of_eq (congrArg Array.size hscopes.symm), fun i _ _ => by rw [hscopes],
    fun i _ => by rw [hscopes]⟩

theorem trans (h : a.Frame b) (h' : b.Frame c) : a.Frame c := by
  refine ⟨h'.current.trans h.current, Nat.le_trans h.size_le h'.size_le, fun i hi hne => ?_,
    fun i hi => ?_⟩
  · -- The current scope in the middle is that of the start, so the same scopes are meant.
    have hi' := Nat.lt_of_lt_of_le hi h.size_le
    exact (h'.others i hi' (by rw [h.current]; exact hne)).trans (h.others i hi hne)
  · exact (h'.outer i (Nat.lt_of_lt_of_le hi h.size_le)).trans (h.outer i hi)

/-- A binding in the current scope. -/
theorem set (s : Store) (name : String) (v : Value) : s.Frame (s.set s.current name v) :=
  ⟨rfl, Nat.le_of_eq (Store.set_size s s.current name v).symm,
    fun _ _ hne => Store.set_scopes_of_ne hne name v,
    fun i _ => Store.set_outer s s.current name v i⟩

end Store.Frame

/-- Evaluation in a frame: any store may be evaluated in, and any value may
    come out. -/
def Discipline.framing : Discipline where
  good _ := True
  moves := Store.Frame
  fine _ _ := True
  refl _ := .of_eq rfl rfl
  trans := .trans
  stays _ _ := trivial

namespace Eval

theorem Simple.framing {α : Type} {m : Eval α} (h : Simple m) (s : Store) :
    Discipline.framing.Keeps s m fun _ _ => True := by
  intro a s' hresult
  rcases h.quiet s a s' hresult with ⟨hscopes, hcurrent⟩
  exact ⟨trivial, .of_eq hscopes hcurrent, trivial⟩

/-- A call leaves all scopes alone that are there, the caller's and that of
    the function included. -/
theorem call_untouched {run : BodyRunner}
    (hrun : ∀ s block, Discipline.framing.Keeps s (run block) fun _ _ => True)
    {f : Value} {args : List Value} {s s' : Store} {v : Value}
    (h : call run f args s = some (v, s')) :
    s'.current = s.current ∧ s.scopes.size ≤ s'.scopes.size ∧
      ∀ i < s.scopes.size, s'.scopes[i]? = s.scopes[i]? := by
  by_cases hfn : ∃ id params body outer, f = .fn id params body outer ∧
      args.length = params.length
  · rcases hfn with ⟨id, params, body, outer, rfl, hlen⟩
    rw [call_fn run id body outer hlen] at h
    rcases Option.map_eq_some_iff.mp h with ⟨⟨w, t⟩, hbody, heq⟩
    rcases Prod.mk.inj heq with ⟨-, rfl⟩
    rcases hrun _ body w t hbody with ⟨-, hframe, -⟩
    have hsize := hframe.size_le
    rw [Store.calling_size] at hsize
    refine ⟨rfl, Nat.le_of_succ_le hsize, fun i hi => ?_⟩
    -- The current scope of the body is the new one, so it is none of these.
    have hbefore := hframe.others i (by rw [Store.calling_size]; omega) (Nat.ne_of_lt hi)
    exact hbefore.trans (Store.calling_scopes_of_lt hi outer _)
  · -- No body is run, and nothing else in a call touches a scope.
    have hsimple : Simple (call run f args) := simple_call fun id params body outer heq hlen =>
      hfn ⟨id, params, body, outer, heq, hlen⟩
    rcases hsimple.quiet s v s' h with ⟨hscopes, hcurrent⟩
    rw [hscopes]
    exact ⟨hcurrent, Nat.le_refl _, fun _ _ => rfl⟩

/-- What a call of a function does is the same from everywhere. Only the
    current scope, to which it comes back, is another one. -/
theorem call_enter (run : BodyRunner) (id : ObjectId) (params : List String) (body : Block)
    (outer : ScopeId) (args : List Value) (s : Store) (caller : ScopeId) :
    call run (.fn id params body outer) args (s.enter caller) =
      (call run (.fn id params body outer) args s).map fun p => (p.1, p.2.enter caller) := by
  by_cases hlen : args.length = params.length
  · rw [call_fn run id body outer hlen, call_fn run id body outer hlen, Store.calling_enter,
      Option.map_map]
    rfl
  · rw [call_fn_of_length run id body outer hlen]
    rfl

end Eval

/-- What is done to a store keeps to the frame. -/
theorem framing_followed : Discipline.framing.Followed where
  null _ := trivial
  bool _ _ := trivial
  ident s name _ := (Eval.simple_ident name).framing s
  int s _ _ := (Eval.simple_new _).framing s
  str s _ _ := (Eval.simple_new _).framing s
  array s _ _ _ := (Eval.simple_new _).framing s
  map s _ _ _ := (Eval.simple_new _).framing s
  closure s params body _ := (Eval.simple_closure params body).framing s
  returned s _ _ _ := (Eval.simple_new _).framing s
  error s cause _ := (Eval.simple_newError cause).framing s
  unary s op v _ _ := (Eval.simple_unary op v).framing s
  binary s op v w _ _ _ := (Eval.simple_binary op v w).framing s
  index s v w _ _ _ := (Eval.simple_index v w).framing s
  bind s name v _ _ := by
    intro a s' h
    rcases Prod.mk.inj (Option.some.inj h) with ⟨-, rfl⟩
    exact ⟨trivial, .set s name v, trivial⟩
  call run hrun s f args _ _ _ := by
    intro v s' h
    rcases Eval.call_untouched (fun s block => hrun s block trivial) h with
      ⟨hcurrent, hsize, hscopes⟩
    exact ⟨trivial, ⟨hcurrent, hsize, fun i hi _ => hscopes i hi, fun i hi => by rw [hscopes i hi]⟩,
      trivial⟩

/-- Expressions and statements bind names in the current scope alone, which
    stays the current one. A call of a function changes no scope that is
    there, and what it does is the same from whichever scope it is made. -/
theorem evaluation_frame (limit : Nat) (s : Store) :
    (∀ e v s', Expr.eval (Eval.body limit) e s = some (v, s') → s.Frame s') ∧
    (∀ st v s', Stmt.eval (Eval.body limit) st s = some (v, s') → s.Frame s') ∧
    ∀ id params body outer args v s',
      Eval.call (Eval.body limit) (.fn id params body outer) args s = some (v, s') →
        s'.current = s.current ∧ (∀ i < s.scopes.size, s'.scopes[i]? = s.scopes[i]?) ∧
        ∀ caller, Eval.call (Eval.body limit) (.fn id params body outer) args (s.enter caller)
          = some (v, s'.enter caller) := by
  have hbody := Discipline.body_keeps framing_followed limit
  refine ⟨fun e v s' h => ?_, fun st v s' h => ?_, fun id params body outer args v s' h => ?_⟩
  · exact (Discipline.expr_keeps framing_followed hbody e s trivial v s' h).2.1
  · exact (Discipline.stmt_keeps framing_followed hbody st s trivial v s' h).2.1
  · -- What one call did from one scope is what it does from any other one.
    rcases Eval.call_untouched (fun s block => hbody s block trivial) h with
      ⟨hcurrent, -, hscopes⟩
    refine ⟨hcurrent, hscopes, fun caller => ?_⟩
    rw [Eval.call_enter, h]
    rfl

/-- A body that binds a name of its own and then returns. -/
def shadowingBody : Block :=
  [.bind "x" (.int 1), .ret (.ident "x"), .expr (.ident "missing")]

/-- A scope in which the same name is bound, and a scope to call from. -/
def shadowedStore : Store :=
  ((Store.empty.addScope none).2.set 0 "x" (.bool true)).addScope none |>.2

/-- The frame where it could be left: a call that binds a name of its caller
    on the way, a statement that fails, and a body that returns early. -/
theorem evaluation_frame_shadowing :
    (∃ v s', Expr.eval (Eval.body 1) (.call (.fn [] shadowingBody) []) shadowedStore
        = some (v, s') ∧ shadowedStore.Frame s') ∧
    (∃ v s', Stmt.eval (Eval.body 1) (.bind "x" (.ident "missing")) shadowedStore
        = some (v, s') ∧ shadowedStore.Frame s') ∧
    ∃ v s', Eval.call (Eval.body 1) (.fn 3 [] shadowingBody 0) [] shadowedStore = some (v, s') ∧
      (∀ i < 2, s'.scopes[i]? = shadowedStore.scopes[i]?) ∧
      Eval.call (Eval.body 1) (.fn 3 [] shadowingBody 0) [] (shadowedStore.enter 1)
        = some (v, s'.enter 1) := by
  obtain ⟨⟨v, s'⟩, hexpr⟩ : ∃ p, Expr.eval (Eval.body 1) (.call (.fn [] shadowingBody) [])
      shadowedStore = some p := Option.isSome_iff_exists.mp (by decide +kernel)
  obtain ⟨⟨w, t⟩, hstmt⟩ : ∃ p, Stmt.eval (Eval.body 1) (.bind "x" (.ident "missing"))
      shadowedStore = some p := Option.isSome_iff_exists.mp (by decide +kernel)
  obtain ⟨⟨u, r⟩, hcall⟩ : ∃ p, Eval.call (Eval.body 1) (.fn 3 [] shadowingBody 0) []
      shadowedStore = some p := Option.isSome_iff_exists.mp (by decide +kernel)
  rcases evaluation_frame 1 shadowedStore with ⟨hexprs, hstmts, hcalls⟩
  rcases hcalls 3 [] shadowingBody 0 [] u r hcall with ⟨-, hscopes, hcaller⟩
  exact ⟨⟨v, s', hexpr, hexprs _ v s' hexpr⟩, ⟨w, t, hstmt, hstmts _ w t hstmt⟩,
    u, r, hcall, hscopes, hcaller 1⟩

end Monkey
