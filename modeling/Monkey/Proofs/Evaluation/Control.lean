import Monkey.Proofs.Evaluation.Clean
import Monkey.Proofs.Evaluation.Parts

/-!
# Control Does Not Escape

Returned values and errors are handed on and never kept.

Both are values like others to whoever looks at the type, and each place that
stores a value could store one of them: a binding, a parameter, an element of
an array, a key or value of a map. That none of them does is an invariant of
whole sessions. A part of an evaluation that begins in a clean store with
clean values comes to a clean value, to an error, or to a returned value that
wraps a clean one. The last clause is why taking off one wrapping is enough,
both where a call ends and where a program ends: a `return` whose own value
stops hands that on and wraps nothing, so there are never two wrappings.

## Main definitions

* `Value.Controlled`: Clean, an error, or one wrapping of a clean value.
* `Discipline.controlling`: The discipline that this is.

## Theorems

* `controlling_followed`: The operations keep to it.
* `Eval.call_not_returned`: A call yields no returned value.
* `Store.Session.clean`: The stores of a session are clean.
* `session_controlled`: What holds in all parts of all programs of a session.
-/

namespace Monkey

/-- What an evaluation of clean values comes to. -/
inductive Value.Controlled : Value → Prop where
  | clean {v : Value} (h : v.Clean) : v.Controlled
  | returned (id : ObjectId) {v : Value} (h : v.Clean) : (Value.returned id v).Controlled
  | error (id : ObjectId) (cause : RuntimeError) : (Value.error id cause).Controlled

namespace Value

/-- What does not stop is clean. -/
theorem Controlled.clean_of_stops {v : Value} (h : v.Controlled) (hstops : v.stops = false) :
    v.Clean := by
  cases h with
  | clean h => exact h
  | returned id h => cases hstops
  | error id cause => cases hstops

/-- What arrives behind a call is a clean value or an error: there is one
    wrapping at most, and it is taken off. -/
theorem Controlled.arrived {v : Value} (h : v.Controlled) :
    (Eval.arrived v).Clean ∨ (Eval.arrived v).isError = true := by
  cases h with
  | clean h =>
      have hsame : Eval.arrived v = v := by cases h <;> rfl
      rw [hsame]
      exact .inl h
  | returned id h => exact .inl h
  | error id cause => exact .inr rfl

theorem controlled_of_answer {v : Value} (h : v.Clean ∨ v.isError = true) : v.Controlled := by
  rcases h with h | h
  · exact .clean h
  · cases v with
    | error id cause => exact .error id cause
    | _ => cases h

end Value

/-- Clean stores, and values that are clean but for control. -/
def Discipline.controlling : Discipline where
  good := Store.Clean
  moves _ _ := True
  fine _ := Value.Controlled
  refl _ := trivial
  trans _ _ := trivial
  stays _ h := h

open Discipline (controlling)

theorem Discipline.Plain.clean {s : Store} {v : Value} (h : controlling.Plain s v) : v.Clean :=
  h.1.clean_of_stops h.2

namespace Eval

variable {s : Store}

/-- An operation that answers with clean values and errors is controlled. -/
theorem Answers.controlled {m : Eval Value} (h : Answers s m) :
    controlling.Keeps s m controlling.fine := by
  intro v s' hv
  rcases h v s' hv with ⟨hs', hanswer⟩
  exact ⟨hs', trivial, Value.controlled_of_answer hanswer⟩

/-- A call of clean values answers with a clean value or an error if bodies
    are controlled. -/
theorem answers_call {run : BodyRunner}
    (hrun : ∀ s block, s.Clean → controlling.Keeps s (run block) controlling.fine)
    (hs : s.Clean) (f : Value) {args : List Value} (hargs : ∀ v ∈ args, v.Clean) :
    Answers s (call run f args) := by
  by_cases hfn : ∃ id params body outer, f = .fn id params body outer ∧
      args.length = params.length
  · rcases hfn with ⟨id, params, body, outer, rfl, hlen⟩
    intro v s' hv
    rw [call_fn run id body outer hlen] at hv
    rcases Option.map_eq_some_iff.mp hv with ⟨⟨w, t⟩, hbody, heq⟩
    rcases Prod.mk.inj heq with ⟨rfl, rfl⟩
    rcases hrun _ body (hs.calling outer params hargs) w t hbody with ⟨ht, -, hw⟩
    exact ⟨ht.of_eq rfl, Value.Controlled.arrived hw⟩
  · exact (trying_call fun id params body outer heq hlen =>
      hfn ⟨id, params, body, outer, heq, hlen⟩).answers hs hargs

end Eval

/-- What is done to a store is controlled. -/
theorem controlling_followed : controlling.Followed where
  null _ := .clean .null
  bool _ b := .clean (.bool b)
  ident s name hs := ((Eval.trying_ident name).answers_alone hs).controlled
  int s n hs := ((Eval.giving_newInt n).trying.answers_alone hs).controlled
  str s contents hs := ((Eval.giving_newStr contents).trying.answers_alone hs).controlled
  array s vs hs hvs :=
    (Eval.answers_new hs fun id => .inl (.array id fun v hv => (hvs v hv).clean)).controlled
  map s slots hs hslots :=
    (Eval.answers_new hs fun id => .inl (.map id (fun slot h => (hslots slot h).1.clean)
      fun slot h => (hslots slot h).2.clean)).controlled
  closure s params body hs :=
    (Eval.answers_get (Eval.answers_new hs fun id => .inl (.fn id params body _))).controlled
  returned s v hs hv := by
    -- The one place where a value is wrapped, and it is given plain values alone.
    intro w s' h
    rcases Prod.mk.inj (Option.some.inj h) with ⟨rfl, rfl⟩
    exact ⟨hs.of_eq rfl, trivial, .returned _ hv.clean⟩
  error s cause hs := ((Eval.trying_newError cause).answers_alone hs).controlled
  unary s op v hs _ := ((Eval.trying_unary op v).answers_alone hs).controlled
  binary s op v w hs _ _ := ((Eval.trying_binary op v w).answers_alone hs).controlled
  index s v w hs hv _ := (Eval.answers_index hs hv.clean w).controlled
  bind s name v hs hv := by
    intro a s' h
    rcases Prod.mk.inj (Option.some.inj h) with ⟨-, rfl⟩
    exact ⟨hs.set s.current name hv.clean, trivial, trivial⟩
  call run hrun s f args hs _ hargs :=
    (Eval.answers_call hrun hs f fun v hv => (hargs v hv).clean).controlled

theorem controlling_enters : controlling.Enters :=
  fun _ _ params _ outer _ hs _ hargs => hs.calling outer params fun v hv => (hargs v hv).clean

/-- A call that begins as it should yields no returned value. -/
theorem Eval.call_not_returned {limit : Nat} {s s' : Store} (hs : s.Clean) {f : Value}
    {args : List Value} (hargs : ∀ v ∈ args, v.Clean) {v : Value}
    (h : Eval.call (Eval.body limit) f args s = some (v, s')) (id : ObjectId) (inner : Value) :
    v ≠ .returned id inner := by
  rintro rfl
  have hbodies := Discipline.body_keeps controlling_followed limit
  rcases (Eval.answers_call hbodies hs f hargs _ s' h).2 with hclean | herror
  · cases hclean
  · cases herror

/-- The statements of a program leave a clean store behind and come to a clean
    value or an error, if they come to something. -/
theorem evalFrom_answers {limit : Nat} (ss : Block) :
    ∀ {last : Option Value} {s : Store}, s.Clean → (∀ v, last = some v → v.Clean) →
      ∀ {result : Option Value} {s' : Store},
        Program.evalFrom (Eval.body limit) last ss s = some (result, s') →
          s'.Clean ∧ ∀ v, result = some v → v.Clean ∨ v.isError = true := by
  induction ss with
  | nil =>
      intro last s hs hlast result s' h
      rcases Prod.mk.inj (Option.some.inj h) with ⟨rfl, rfl⟩
      exact ⟨hs, fun v hv => .inl (hlast v hv)⟩
  | cons st ss ih =>
      intro last s hs hlast result s' h
      rcases Option.bind_eq_some_iff.mp h with ⟨⟨v, t⟩, hst, hrest⟩
      have hbodies := Discipline.body_keeps controlling_followed limit
      rcases Discipline.stmt_keeps controlling_followed hbodies st s hs v t hst with ⟨ht, -, hv⟩
      change Store.Clean t at ht
      cases hv with
      | returned id hinner =>
          -- One wrapping is taken off here, and what was wrapped is clean.
          rcases Prod.mk.inj (Option.some.inj hrest) with ⟨rfl, rfl⟩
          exact ⟨ht, fun w hw => .inl (Option.some.inj hw ▸ hinner)⟩
      | error id cause =>
          rcases Prod.mk.inj (Option.some.inj hrest) with ⟨rfl, rfl⟩
          exact ⟨ht.of_eq rfl, fun w hw => .inr (Option.some.inj hw ▸ rfl)⟩
      | clean hclean =>
          have hgo : Program.evalFrom (Eval.body limit) (some v) ss t = some (result, s') := by
            cases hclean <;> exact hrest
          exact ih ht (fun w hw => Option.some.inj hw ▸ hclean) hgo

namespace Store

variable {s : Store}

/-- A program that is run in a clean store leaves a clean one behind, and its
    result is a clean value or an error. -/
theorem Clean.run (hs : s.Clean) {limit : Nat} {scope : ScopeId} {program : Block}
    {report : Report} {s' : Store} (h : s.run limit scope program = some (report, s')) :
    s'.Clean ∧ ∀ v, report.result = some v → v.Clean ∨ v.isError = true := by
  rcases Option.bind_eq_some_iff.mp h with ⟨⟨result, after⟩, heval, hreport⟩
  rcases Prod.mk.inj (Option.some.inj hreport) with ⟨rfl, rfl⟩
  have hstart : (s.clearJournal.enter scope).Clean := hs.of_eq rfl
  exact evalFrom_answers program hstart (fun v hv => by cases hv) heval

/-- All stores of a session are clean. -/
theorem Session.clean (h : Session s) : s.Clean := by
  induction h with
  | fresh => exact clean_empty.addScope none
  | run _ hrun ih => exact (ih.run hrun).1

end Store

/-- In a session, control does not escape. Every store between its programs is
    clean. When a program is run in one, then all its parts begin in clean
    stores with clean values, arguments of calls included, and leave clean
    stores behind; what they come to is clean, an error or one wrapping of a
    clean value, and a call never comes to a wrapping. The store that the
    program leaves is clean, and its result is a clean value or an error. -/
theorem session_controlled {s : Store} (hs : s.Session) (program : Block) :
    s.Clean ∧
    (∀ p, Within (.start program s) p →
      p.store.Clean ∧ p.task.Over Value.Clean ∧
      ∀ v s', p.Yields v s' → s'.Clean ∧ v.Controlled ∧
        ∀ callee args, p.task = .call callee args → ∀ id inner, v ≠ .returned id inner) ∧
    ∀ limit report s', s.run limit Store.withRoot.1 program = some (report, s') →
      s'.Clean ∧ ∀ v, report.result = some v → v.Clean ∨ v.isError = true := by
  have hstart : controlling.Ready (.start program s) := ⟨hs.clean.of_eq rfl, trivial⟩
  refine ⟨hs.clean, fun p hp => ?_, fun limit report s' h => hs.clean.run h⟩
  have hready := hstart.within controlling_followed controlling_enters hp
  have hvalues : p.task.Over Value.Clean := hready.2.imp fun v hv => hv.clean
  refine ⟨hready.1, hvalues, fun v s' hv => ?_⟩
  rcases hready.yields controlling_followed hv with ⟨hs', -, hcontrolled⟩
  refine ⟨hs', hcontrolled, fun callee args hcall => ?_⟩
  rcases p with ⟨t, store⟩
  obtain rfl : t = .call callee args := hcall
  rcases hv with ⟨limit, hv⟩
  exact Eval.call_not_returned hready.1 hvalues.2 hv

/-- A function that is left from inside an array, and an error on its way into
    another one. -/
def escapingProgram : Block :=
  [.bind "f" (.fn ["x"] [.expr (.array [.cond (.ident "x") [.ret (.array [.int 1])] none])]),
    .bind "a" (.call (.ident "f") [.bool true]),
    .bind "a" (.call (.ident "push") [.ident "a", .ident "missing"])]

/-- A program behind it that leaves with a call of the same function. -/
def leavingCall : Block :=
  [.ret (.call (.ident "f") [.ident "a"])]

theorem session_controlled_leavingCall :
    ∃ r r', Store.withRoot.2.run 2 0 escapingProgram = some r ∧ r.2.Session ∧ r.2.Clean ∧
      r.2.run 2 0 leavingCall = some r' ∧ r'.2.Clean ∧
      (∀ v, r'.1.result = some v → v.Clean ∨ v.isError = true) ∧
      (Point.mk (.stmt (.ret (.call (.ident "f") [.ident "a"])))
        (r.2.clearJournal.enter 0)).store.Clean := by
  obtain ⟨⟨r, r'⟩, h⟩ : ∃ p, (do
      let r ← Store.withRoot.2.run 2 0 escapingProgram
      let r' ← r.2.run 2 0 leavingCall
      return (r, r')) = some p := Option.isSome_iff_exists.mp (by decide +kernel)
  rcases Option.bind_eq_some_iff.mp h with ⟨r₁, hfirst, h⟩
  rcases Option.bind_eq_some_iff.mp h with ⟨r₂, hsecond, h⟩
  rcases Prod.mk.inj (Option.some.inj h) with ⟨rfl, rfl⟩
  have hsession : r₁.2.Session := .run .fresh hfirst
  rcases session_controlled hsession leavingCall with ⟨hclean, hparts, hrun⟩
  rcases hrun 2 r₂.1 r₂.2 hsecond with ⟨hclean', hresult⟩
  exact ⟨r₁, r₂, hfirst, hsession, hclean, hsecond, hclean', hresult,
    (hparts _ (.single .statement)).1⟩

end Monkey
