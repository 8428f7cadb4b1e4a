import Mathlib.Data.List.Basic
import Monkey.Proofs.Evaluation.Contents
import Monkey.Proofs.Evaluation.Mirror

/-!
# Evaluation in Mirrored Stores

What is evaluated in a mirrored store does the same once more.

An evaluation repeats another one if it has a result in every store that mirrors
one in which the other has a result, if its value is the other's under the other
numbers, and if the stores they leave behind mirror one another again. Numbers
are taken at the same moments in both, so a new object of the first run has its
counterpart in the second.

A program can look at values in a few ways only: at the type, at contents, at
the key under which a value is filed, and at whether two values are the same.
None of them tells a value from its counterpart, so an operation takes the same
way in both runs. With operations and calls out of the way, syntax is repeated
by recursion on it, and bodies by induction on how deeply calls may nest.

## Main definitions

* `Rerun.Repeats`: An evaluation does what another one does.

## Theorems

* `Rerun.Repeats.bind`, `Rerun.Repeats.unlessStopped`: One evaluation after
  another.
* `Rerun.repeats_binary`, `Rerun.repeats_apply` and the like: Operations.
* `Rerun.repeats_call`: Calls.
* `Rerun.repeats_expr` and the like: Syntax.
* `Rerun.repeats_body`, `Rerun.repeats_evalFrom`: The bodies of functions, and
  programs.
-/

namespace Monkey

namespace Rerun

open Eval

variable (ρ : Rerun) {α β : Type} {run : BodyRunner}

/-- The second evaluation does in mirrored stores what the first one does, and
    its value is found from that of the first. -/
def Repeats (f : α → β) (m : Eval α) (m' : Eval β) : Prop :=
  ∀ s t, ρ.Mirrors s t → ∀ a s', m s = some (a, s') →
    ∃ t', m' t = some (f a, t') ∧ ρ.Mirrors s' t'

variable {ρ}

theorem repeats_pure {f : α → β} {a : α} {b : β} (h : b = f a) :
    ρ.Repeats f (pure a) (pure b) := by
  intro s t hst a' s' hresult
  rcases Prod.mk.inj (Option.some.inj hresult) with ⟨rfl, rfl⟩
  exact ⟨t, h ▸ rfl, hst⟩

/-- The shared objects are the same both times. -/
theorem repeats_null : ρ.Repeats ρ.value (pure .null) (pure .null) :=
  repeats_pure ρ.value_null.symm

theorem repeats_bool (b : Bool) : ρ.Repeats ρ.value (pure (.bool b)) (pure (.bool b)) :=
  repeats_pure (ρ.value_bool b).symm

theorem Repeats.bind {α' β' : Type} {f : α → β} {g : α' → β'} {m : Eval α} {m' : Eval β}
    {next : α → Eval α'} {next' : β → Eval β'} (hm : ρ.Repeats f m m')
    (hnext : ∀ a, ρ.Repeats g (next a) (next' (f a))) :
    ρ.Repeats g (m >>= next) (m' >>= next') := by
  intro s t hst b s'' hresult
  rcases Option.bind_eq_some_iff.mp hresult with ⟨⟨a, s'⟩, hfirst, hrest⟩
  rcases hm s t hst a s' hfirst with ⟨t', hfirst', hst'⟩
  rcases hnext a s' t' hst' b s'' hrest with ⟨t'', hrest', hst''⟩
  exact ⟨t'', Option.bind_eq_some_iff.mpr ⟨(f a, t'), hfirst', hrest'⟩, hst''⟩

section

variable (v w : Value)

theorem type_value : (ρ.value v).type = v.type :=
  v.type_renumber _ _

theorem stops_value : (ρ.value v).stops = v.stops :=
  v.stops_renumber _ _

theorem truthy_value : (ρ.value v).truthy = v.truthy :=
  v.truthy_renumber _ _

theorem hashKey?_value : (ρ.value v).hashKey? = v.hashKey? :=
  v.hashKey?_renumber _ _

theorem arrived_value : arrived (ρ.value v) = ρ.value (arrived v) :=
  v.arrived_renumber _ _

/-- Two values are the same exactly if their counterparts are. -/
theorem same_value : (ρ.value v).same (ρ.value w) = v.same w :=
  Value.same_renumber ρ.object_injective ρ.scope v w

end

/-- A value stops if and only if its counterpart does. -/
theorem Repeats.unlessStopped {m m' : Eval Value} {next next' : Value → Eval Value}
    (hm : ρ.Repeats ρ.value m m')
    (hnext : ∀ v, ρ.Repeats ρ.value (next v) (next' (ρ.value v))) :
    ρ.Repeats ρ.value (m.unlessStopped next) (m'.unlessStopped next') := by
  refine hm.bind fun v => ?_
  rw [stops_value]
  by_cases h : v.stops = true
  · rw [if_pos h, if_pos h]
    exact repeats_pure rfl
  · rw [if_neg h, if_neg h]
    exact hnext v

/-- What is made has the next number in both. -/
theorem repeats_new {f f' : ObjectId → Value} (h : ∀ id, f' (ρ.object id) = ρ.value (f id)) :
    ρ.Repeats ρ.value (newId >>= fun id => pure (f id)) (newId >>= fun id => pure (f' id)) := by
  intro s t hst v s' hresult
  rcases Prod.mk.inj (Option.some.inj hresult) with ⟨rfl, rfl⟩
  refine ⟨_, ?_, hst.take⟩
  rw [← h, ← hst.objects]
  rfl

theorem repeats_newInt (n : Int64) : ρ.Repeats ρ.value (newInt n) (newInt n) :=
  repeats_new fun _ => rfl

theorem repeats_newStr (contents : String) :
    ρ.Repeats ρ.value (newStr contents) (newStr contents) :=
  repeats_new fun _ => rfl

theorem repeats_newBuiltin (b : Builtin) : ρ.Repeats ρ.value (newBuiltin b) (newBuiltin b) :=
  repeats_new fun _ => rfl

theorem repeats_newError (cause : RuntimeError) :
    ρ.Repeats ρ.value (newError cause) (newError cause) :=
  repeats_new fun _ => rfl

theorem repeats_newReturned (v : Value) :
    ρ.Repeats ρ.value (newReturned v) (newReturned (ρ.value v)) :=
  repeats_new fun _ => rfl

theorem repeats_newArray (elements : List Value) :
    ρ.Repeats ρ.value (newArray elements) (newArray (elements.map ρ.value)) :=
  repeats_new fun id => (ρ.value_array id elements).symm

theorem repeats_newMap (slots : List (Slot Value)) :
    ρ.Repeats ρ.value (newMap slots) (newMap (slots.map (Slot.map ρ.value))) :=
  repeats_new fun id => (ρ.value_map id slots).symm

/-- A function remembers the counterpart of the current scope. -/
theorem repeats_closure (params : List String) (body : Block) :
    ρ.Repeats ρ.value (closure params body) (closure params body) := by
  intro s t hst v s' hresult
  rcases Prod.mk.inj (Option.some.inj hresult) with ⟨rfl, rfl⟩
  refine ⟨_, ?_, hst.take⟩
  change some (Value.fn t.nextId params body t.current, _) = _
  rw [hst.objects, hst.current]
  rfl

/-- A name is bound to the counterpart of what it was bound to, or not bound
    again. -/
theorem repeats_ident (name : String) : ρ.Repeats ρ.value (ident name) (ident name) := by
  intro s t hst v s' hresult
  have hget := hst.get? s.current name
  rw [← hst.current] at hget
  cases hbound : s.get? s.current name with
  | some w =>
      rw [ident_of_some hbound] at hresult
      rcases Prod.mk.inj (Option.some.inj hresult) with ⟨rfl, rfl⟩
      rw [hbound] at hget
      exact ⟨t, ident_of_some hget, hst⟩
  | none =>
      rw [hbound] at hget
      cases hb : Builtin.ofName? name with
      | some b =>
          rw [ident_of_builtin hbound hb] at hresult
          rw [ident_of_builtin hget hb]
          exact repeats_newBuiltin b s t hst v s' hresult
      | none =>
          rw [ident_of_unknown hbound hb] at hresult
          rw [ident_of_unknown hget hb]
          exact repeats_newError _ s t hst v s' hresult

theorem repeats_bind (name : String) (v : Value) :
    ρ.Repeats id (Eval.bind name v) (Eval.bind name (ρ.value v)) := by
  intro s t hst u s' hresult
  rcases Prod.mk.inj (Option.some.inj hresult) with ⟨rfl, rfl⟩
  refine ⟨_, rfl, ?_⟩
  have hset := hst.set s.current name v
  rw [← hst.current] at hset
  exact hset

section

variable (v w : Value)

/-- An error that says of what type a value is. -/
theorem repeats_newError_type (cause : ValueType → RuntimeError) :
    ρ.Repeats ρ.value (newError (cause v.type)) (newError (cause (ρ.value v).type)) := by
  rw [type_value]
  exact repeats_newError _

theorem repeats_unary (op : Kind) : ρ.Repeats ρ.value (unary op v) (unary op (ρ.value v)) := by
  cases op with
  | bang =>
      have hsame : unary .bang (ρ.value v) = unary .bang v :=
        congrArg (fun b => pure (Value.bool !b)) (truthy_value v)
      rw [hsame]
      exact repeats_bool _
  | minus =>
      cases v with
      | int id n => exact repeats_newInt _
      | _ => exact repeats_newError _
  | _ => exact repeats_newError_type v (.unknownUnary _)

theorem repeats_arithmetic (op : Kind) (m n : Int64) :
    ρ.Repeats ρ.value (arithmetic op m n) (arithmetic op m n) := by
  unfold arithmetic
  split
  · exact repeats_newInt _
  · exact repeats_newInt _
  · exact repeats_newInt _
  · split
    · exact repeats_newError _
    · exact repeats_newInt _
  · exact repeats_bool _
  · exact repeats_bool _
  · exact repeats_bool _
  · exact repeats_bool _
  · exact repeats_newError _

theorem repeats_compare (op : Kind) :
    ρ.Repeats ρ.value (Eval.compare op v w) (Eval.compare op (ρ.value v) (ρ.value w)) := by
  unfold Eval.compare
  -- With the same answers to all questions, the two are one evaluation.
  rw [same_value, type_value, type_value]
  split
  · exact repeats_bool _
  · exact repeats_bool _
  · split <;> exact repeats_newError _

theorem repeats_binary (op : Kind) :
    ρ.Repeats ρ.value (binary op v w) (binary op (ρ.value v) (ρ.value w)) := by
  cases v with
  | int i m =>
      cases w with
      | int j n => exact repeats_arithmetic op m n
      | _ => exact repeats_compare _ _ op
  | str i contents =>
      cases w with
      | str j contents' =>
          change ρ.Repeats ρ.value
            (if op = .plus then newStr (contents ++ contents')
              else Eval.compare op (.str i contents) (.str j contents'))
            (if op = .plus then newStr (contents ++ contents')
              else Eval.compare op (ρ.value (.str i contents)) (ρ.value (.str j contents')))
          split
          · exact repeats_newStr _
          · exact repeats_compare _ _ op
      | _ => exact repeats_compare _ _ op
  | _ => exact repeats_compare _ w op

/-- What is found has its counterpart, and so has null if nothing is. -/
theorem getD_value (found : Option Value) :
    (found.map ρ.value).getD .null = ρ.value (found.getD .null) := by
  cases found with
  | none => exact ρ.value_null.symm
  | some v => rfl

theorem elementAt_value (elements : List Value) (i : Int64) :
    elementAt (elements.map ρ.value) i = ρ.value (elementAt elements i) := by
  unfold elementAt
  split
  · exact ρ.value_null.symm
  · rw [List.getElem?_map, getD_value]

theorem repeats_index : ρ.Repeats ρ.value (index v w) (index (ρ.value v) (ρ.value w)) := by
  cases v with
  | array id elements =>
      rw [value_array]
      cases w with
      | int j i => exact repeats_pure (elementAt_value elements i)
      | _ => exact repeats_newError _
  | map id slots =>
      rw [value_map]
      unfold index
      simp only [hashKey?_value, type_value]
      split
      · rename_i hash _
        refine repeats_pure ?_
        rw [Slots.find?_map]
        cases Slots.find? hash slots with
        | none => exact ρ.value_null.symm
        | some slot => rfl
      · exact repeats_newError _
  | _ => exact repeats_newError_type w (.notIndexable _)

end

/-- What a builtin answers the second time. -/
def answer (ρ : Rerun) : Builtin.Answer → Builtin.Answer :=
  Except.map ρ.value

theorem repeats_refuse (cause : RuntimeError) :
    ρ.Repeats ρ.answer (Builtin.refuse cause) (Builtin.refuse cause) :=
  repeats_pure rfl

theorem repeats_yielding {m m' : Eval Value} (h : ρ.Repeats ρ.value m m') :
    ρ.Repeats ρ.answer (Builtin.yielding m) (Builtin.yielding m') :=
  h.bind fun _ => repeats_pure rfl

theorem repeats_withOne (args : List Value) {next : Value → Eval Builtin.Answer}
    (h : ∀ v, ρ.Repeats ρ.answer (next v) (next (ρ.value v))) :
    ρ.Repeats ρ.answer (Builtin.withOne args next) (Builtin.withOne (args.map ρ.value) next) := by
  cases args with
  | nil => exact repeats_refuse _
  | cons v vs =>
      cases vs with
      | nil => exact h v
      | cons w ws =>
          unfold Builtin.withOne
          simp only [List.map_cons, List.length_cons, List.length_map]
          exact repeats_refuse _

theorem repeats_withElements (b : Builtin) (args : List Value)
    {next : List Value → Eval Builtin.Answer}
    (h : ∀ vs, ρ.Repeats ρ.answer (next vs) (next (vs.map ρ.value))) :
    ρ.Repeats ρ.answer (Builtin.withElements b args next)
      (Builtin.withElements b (args.map ρ.value) next) := by
  refine repeats_withOne args fun v => ?_
  cases v with
  | array id elements =>
      rw [value_array]
      exact h elements
  | _ => exact repeats_refuse _

theorem repeats_printAll (vs : List Value) :
    ρ.Repeats id (Builtin.printAll vs) (Builtin.printAll (vs.map ρ.value)) := by
  induction vs with
  | nil => exact repeats_pure rfl
  | cons v vs ih =>
      have hline : ρ.Repeats id (printLine v.text) (printLine (ρ.value v).text) := by
        intro s t hst u s' hresult
        rcases Prod.mk.inj (Option.some.inj hresult) with ⟨rfl, rfl⟩
        rw [value, Value.text_renumber]
        exact ⟨_, rfl, hst.print v.text⟩
      exact hline.bind fun _ => ih

theorem repeats_apply (b : Builtin) (args : List Value) :
    ρ.Repeats ρ.answer (b.apply args) (b.apply (args.map ρ.value)) := by
  cases b with
  | len =>
      refine repeats_withOne args fun v => ?_
      cases v with
      | str id contents => exact repeats_yielding (repeats_newInt _)
      | array id elements =>
          rw [value_array]
          simp only [List.length_map]
          exact repeats_yielding (repeats_newInt _)
      | _ => exact repeats_refuse _
  | type =>
      refine repeats_withOne args fun v => ?_
      rw [type_value]
      exact repeats_yielding (repeats_newStr _)
  | first =>
      refine repeats_withElements .first args fun vs => repeats_pure ?_
      rw [List.head?_map, getD_value]
      rfl
  | last =>
      refine repeats_withElements .last args fun vs => repeats_pure ?_
      rw [List.getLast?_map, getD_value]
      rfl
  | rest =>
      refine repeats_withElements .rest args fun vs => ?_
      cases vs with
      | nil => exact repeats_yielding repeats_null
      | cons v vs => exact repeats_yielding (repeats_newArray vs)
  | push =>
      by_cases hlen : args.length = 2
      · rcases List.length_eq_two.mp hlen with ⟨v, w, rfl⟩
        cases v with
        | array id elements =>
            have happend : (elements ++ [w]).map ρ.value = elements.map ρ.value ++ [ρ.value w] :=
              List.map_append
            rw [List.map_cons, List.map_cons, List.map_nil, value_array]
            exact repeats_yielding (happend ▸ repeats_newArray (elements ++ [w]))
        | _ => exact repeats_refuse _
      · have hlen' : (args.map ρ.value).length ≠ 2 := by rwa [List.length_map]
        rw [Builtin.push_of_length hlen, Builtin.push_of_length hlen', List.length_map]
        exact repeats_refuse _
  | puts => exact (repeats_printAll args).bind fun _ => repeats_yielding repeats_null

/-- A call of the counterpart, with the counterparts of the arguments. -/
theorem repeats_call (hrun : ∀ block, ρ.Repeats ρ.value (run block) (run block))
    (f : Value) (args : List Value) :
    ρ.Repeats ρ.value (call run f args) (call run (ρ.value f) (args.map ρ.value)) := by
  cases f with
  | fn id params body outer =>
      by_cases hlen : args.length = params.length
      · intro s t hst v s' hresult
        have hlen' : (args.map ρ.value).length = params.length := by rw [List.length_map, hlen]
        have hzip : params.zip (args.map ρ.value) = (params.zip args).map ρ.binding := by
          rw [List.zip_map_right]
          rfl
        rw [call_fn run id body outer hlen] at hresult
        rcases Option.map_eq_some_iff.mp hresult with ⟨⟨w, r⟩, hbody, heq⟩
        rcases Prod.mk.inj heq with ⟨rfl, rfl⟩
        rcases hrun body _ _ (hst.calling outer (params.zip args)) w r hbody with
          ⟨r', hbody', hrr'⟩
        refine ⟨r'.enter t.current, ?_, hrr'.enter hst.current⟩
        refine (call_fn run (ρ.object id) body (ρ.scope outer) hlen' t).trans ?_
        rw [hzip, hbody', ← arrived_value]
        rfl
      · have hlen' : (args.map ρ.value).length ≠ params.length := by rwa [List.length_map]
        rw [call_fn_of_length run id body outer hlen]
        refine Eq.subst (call_fn_of_length run (ρ.object id) body (ρ.scope outer) hlen').symm ?_
        rw [List.length_map]
        exact repeats_newError _
  | builtin id b =>
      refine (repeats_apply b args).bind fun found => ?_
      cases found with
      | ok v => exact repeats_pure rfl
      | error cause => exact repeats_newError cause
  | _ => exact repeats_newError _

/-- What a list of expressions comes to the second time. -/
def found (ρ : Rerun) : Except Value (List Value) → Except Value (List Value)
  | .ok vs => .ok (vs.map ρ.value)
  | .error v => .error (ρ.value v)

mutual

/-- Expressions do the same once more if bodies do. -/
theorem repeats_expr (hrun : ∀ block, ρ.Repeats ρ.value (run block) (run block)) :
    ∀ e : Expr, ρ.Repeats ρ.value (e.eval run) (e.eval run)
  | .ident name => repeats_ident name
  | .int n => repeats_newInt n
  | .str contents => repeats_newStr contents
  | .bool b => repeats_bool b
  | .unary op operand => (repeats_expr hrun operand).unlessStopped fun v => repeats_unary v op
  | .binary op left right =>
    (repeats_expr hrun left).unlessStopped fun v =>
      (repeats_expr hrun right).unlessStopped fun w => repeats_binary v w op
  | .cond test consequence none =>
    (repeats_expr hrun test).unlessStopped fun v => by
      rw [truthy_value]
      split
      · exact repeats_block hrun consequence ρ.value_null.symm
      · exact repeats_null
  | .cond test consequence (some alternative) =>
    (repeats_expr hrun test).unlessStopped fun v => by
      rw [truthy_value]
      split
      · exact repeats_block hrun consequence ρ.value_null.symm
      · exact repeats_block hrun alternative ρ.value_null.symm
  | .fn params body => repeats_closure params body
  | .call callee args =>
    (repeats_expr hrun callee).unlessStopped fun f =>
      (repeats_list hrun args).bind fun found => by
        cases found with
        | ok vs => exact repeats_call hrun f vs
        | error v => exact repeats_pure rfl
  | .array elements =>
    (repeats_list hrun elements).bind fun found => by
      cases found with
      | ok vs => exact repeats_newArray vs
      | error v => exact repeats_pure rfl
  | .index base key =>
    (repeats_expr hrun base).unlessStopped fun v =>
      (repeats_expr hrun key).unlessStopped fun w => repeats_index v w
  | .map pairs => repeats_pairs hrun pairs []

/-- Lists of expressions do the same once more if bodies do. -/
theorem repeats_list (hrun : ∀ block, ρ.Repeats ρ.value (run block) (run block)) :
    ∀ es : List Expr, ρ.Repeats ρ.found (Expr.evalList run es) (Expr.evalList run es)
  | [] => repeats_pure rfl
  | e :: es =>
    (repeats_expr hrun e).bind fun v => by
      rw [stops_value]
      split
      · exact repeats_pure rfl
      · refine (repeats_list hrun es).bind fun found => ?_
        cases found with
        | ok vs => exact repeats_pure rfl
        | error w => exact repeats_pure rfl

/-- The pairs of a map do the same once more if bodies do. A key and its
    counterpart are filed under the same. -/
theorem repeats_pairs (hrun : ∀ block, ρ.Repeats ρ.value (run block) (run block)) :
    ∀ (pairs : List (Expr × Expr)) (slots : List (Slot Value)),
      ρ.Repeats ρ.value (Expr.evalPairs run slots pairs)
        (Expr.evalPairs run (slots.map (Slot.map ρ.value)) pairs)
  | [], slots => repeats_newMap slots
  | (key, value) :: pairs, slots =>
    (repeats_expr hrun key).unlessStopped fun k => by
      rw [hashKey?_value, type_value]
      split
      · exact repeats_newError _
      · rename_i hash _
        refine (repeats_expr hrun value).unlessStopped fun v => ?_
        have hinsert : Slots.insert ⟨hash, ρ.value k, ρ.value v⟩ (slots.map (Slot.map ρ.value))
            = (Slots.insert ⟨hash, k, v⟩ slots).map (Slot.map ρ.value) :=
          Slots.insert_map ρ.value ⟨hash, k, v⟩ slots
        rw [hinsert]
        exact repeats_pairs hrun pairs _

/-- Statements do the same once more if bodies do. -/
theorem repeats_stmt (hrun : ∀ block, ρ.Repeats ρ.value (run block) (run block)) :
    ∀ st : Stmt, ρ.Repeats ρ.value (st.eval run) (st.eval run)
  | .bind name value =>
    (repeats_expr hrun value).unlessStopped fun v =>
      (repeats_bind name v).bind fun _ => repeats_null
  | .ret value => (repeats_expr hrun value).unlessStopped fun v => repeats_newReturned v
  | .expr value => repeats_expr hrun value

/-- Blocks do the same once more if bodies do. -/
theorem repeats_block (hrun : ∀ block, ρ.Repeats ρ.value (run block) (run block)) :
    ∀ (ss : List Stmt) {last last' : Value}, last' = ρ.value last →
      ρ.Repeats ρ.value (Block.eval run last ss) (Block.eval run last' ss)
  | [], _, _, h => repeats_pure h
  | st :: ss, _, _, _ => (repeats_stmt hrun st).unlessStopped fun _ => repeats_block hrun ss rfl

end

/-- The bodies of functions do the same once more, however deeply calls may
    nest. -/
theorem repeats_body (ρ : Rerun) (limit : Nat) :
    ∀ block, ρ.Repeats ρ.value (body limit block) (body limit block) := by
  induction limit with
  | zero =>
      intro block s t _ v s' hresult
      exact absurd hresult (by simp only [body, tooDeep, reduceCtorEq, not_false_eq_true])
  | succ limit ih => exact fun block => repeats_block ih block ρ.value_null.symm

/-- The statements of a program do the same once more. -/
theorem repeats_evalFrom (ρ : Rerun) (limit : Nat) (ss : Block) :
    ∀ last : Option Value,
      ρ.Repeats (Option.map ρ.value) (Program.evalFrom (body limit) last ss)
        (Program.evalFrom (body limit) (last.map ρ.value) ss) := by
  induction ss with
  | nil => exact fun last => repeats_pure rfl
  | cons st ss ih =>
      intro last
      refine (repeats_stmt (repeats_body ρ limit) st).bind fun v => ?_
      cases v with
      | returned id inner => exact repeats_pure rfl
      | error id cause =>
          intro s t hst result s' hresult
          rcases Prod.mk.inj (Option.some.inj hresult) with ⟨rfl, rfl⟩
          exact ⟨_, rfl, hst.record _⟩
      | _ => exact ih _

end Rerun

end Monkey
