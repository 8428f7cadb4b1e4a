import Monkey.Proofs.Evaluation.Frame
import Monkey.Proofs.Evaluation.Rerun
import Monkey.Proofs.Evaluation.Repetition
import Monkey.Proofs.Printing.RoundTrip
import Monkey.Session

/-!
# Lines and Scripts

A session line by line is a script cut into pieces.

A line that cannot be parsed leaves no trace, so it might as well not have been
there. The other lines are programs, each with a run of its own, and a run
begins with an empty journal and with the scope of the session as the current
one. Neither can be noticed. A program does not read what was printed or
recorded, it only adds to it, and when a statement is over the current scope is
what it was before. So what one program does is what its pieces do one after
another, as long as no piece is stopped: a script ends with the statement that
stops it, and a session goes on with the next line.

That nothing is read of what was written holds because an evaluation does the
same in stores that mirror one another. Two stores that differ in nothing else
do, under the very same numbers.

A line may have no result at all, since its evaluation need not end. Then
neither has the script, and that is why all of this is said with equations
between results that there may be or not.

## Main definitions

* `Store.after`: What was written in one store, and then in another one.
* `Eval.Unread`: An evaluation that does not read what was written before.
* `Program.Passing`, `Store.Passing`: Statements and programs that do not stop.
* `Store.interpretAll`: Source texts run one after another.
* `Joined`: What one program did is what its pieces did.

## Theorems

* `Eval.unread_evalFrom`: Programs do not read what was written before.
* `Program.evalFrom_append`: Some statements, and then the others.
* `Store.interpretAll_kept`: Texts that cannot be parsed may be left out.
* `Store.joined`: Programs one after another are one program.
* `Store.run_stopped`: Nothing is evaluated behind what stops.
* `lines_joined`: A session line by line, and as a script.
-/

namespace Monkey

namespace Store

/-- A store with what was written in another one before. -/
def after (s before : Store) : Store :=
  { s with output := before.output ++ s.output, journal := s.journal ++ before.journal }

end Store

namespace Rerun

variable {ρ : Rerun}

/-- The second time begins with the numbers of the first. -/
def Still (ρ : Rerun) : Prop :=
  ρ.second.nextId = ρ.first.nextId ∧ ρ.second.scopes.size = ρ.first.scopes.size

/-- What is done again where the numbers are the same. -/
def still (s t : Store) (hids : t.nextId = s.nextId) : Rerun where
  first := s
  second := t
  shared i _ := by rw [hids, move_self]

theorem Still.object_eq (h : ρ.Still) (i : ObjectId) : ρ.object i = i := by
  rw [object, h.1, move_self]

theorem Still.scope_eq (h : ρ.Still) (i : ScopeId) : ρ.scope i = i := by
  rw [scope, h.2, move_self]

theorem Still.value_eq (h : ρ.Still) (v : Value) : ρ.value v = v :=
  v.renumber_eq_self fun u _ => ⟨h.object_eq u.number, fun i _ => h.scope_eq i⟩

theorem Still.scopeOf_eq (h : ρ.Still) (here : Scope) : ρ.scopeOf here = here := by
  have hbinding : ρ.binding = id := funext fun b => congrArg (Prod.mk b.1) (h.value_eq b.2)
  have hscope : ρ.scope = id := funext h.scope_eq
  rw [scopeOf, hbinding, hscope, List.map_id, Option.map_id_fun, id]

/-- A store mirrors another one from which it differs in what was written. -/
theorem mirrors_of_eq (s t : Store) (hscopes : t.scopes = s.scopes)
    (hcurrent : t.current = s.current) (hids : t.nextId = s.nextId) :
    (still s t hids).Mirrors s t := by
  have hstill : (still s t hids).Still := ⟨hids, congrArg Array.size hscopes⟩
  exact {
    objects_le := Nat.le_refl _
    objects := by rw [hstill.object_eq, hids]
    scopes_le := Nat.le_refl _
    size := by rw [hstill.scope_eq, hscopes]
    scopes := fun i => by
      rw [hstill.scope_eq, hscopes]
      cases s.scopes[i]? with
      | none => rfl
      | some here => rw [Option.map_some, hstill.scopeOf_eq]
    current := by rw [hstill.scope_eq, hcurrent]
    output := ⟨"", String.append_empty.symm, String.append_empty.symm⟩
    journal := ⟨[], rfl, rfl⟩ }

/-- What mirrors a store that began with an empty journal is that store, with
    what was written before. -/
theorem Mirrors.eq_after {s u t : Store} (h : (still s.clearJournal s rfl).Mirrors u t) :
    t = u.after s := by
  have hstill : (still s.clearJournal s rfl).Still := ⟨rfl, rfl⟩
  have hscopes : t.scopes = u.scopes := by
    refine Array.ext_getElem? fun i => ?_
    have hi := h.scopes i
    rw [hstill.scope_eq] at hi
    rw [hi]
    cases u.scopes[i]? with
    | none => rfl
    | some here => rw [Option.map_some, hstill.scopeOf_eq]
  have hcurrent : t.current = u.current := h.current.trans (hstill.scope_eq _)
  have hids : t.nextId = u.nextId := h.objects.trans (hstill.object_eq _)
  rcases h.output with ⟨text, hu, ht⟩
  rcases h.journal with ⟨events, hu', ht'⟩
  have htext : u.output = text := hu.trans String.empty_append
  have hevents : u.journal = events := hu'.trans (List.append_nil events)
  have houtput : t.output = s.output ++ u.output := htext ▸ ht
  have hjournal : t.journal = u.journal ++ s.journal := hevents ▸ ht'
  rw [Store.after, ← hscopes, ← hcurrent, ← hids, ← houtput, ← hjournal]

end Rerun

namespace Eval

/-- An evaluation adds to what was written before it and does not read it. -/
def Unread {α : Type} (m : Eval α) : Prop :=
  ∀ s, m s = (m s.clearJournal).map fun r => (r.1, r.2.after s)

/-- What is repeated where nothing has other numbers reads nothing of what was
    written. -/
theorem Unread.of_repeats {α : Type} {m : Eval α}
    (h : ∀ ρ : Rerun, ρ.Still → ρ.Repeats id m m) : Unread m := by
  intro s
  cases hclear : m s.clearJournal with
  | some r =>
      have hmirrors : (Rerun.still s.clearJournal s rfl).Mirrors s.clearJournal s :=
        Rerun.mirrors_of_eq s.clearJournal s rfl rfl rfl
      rcases h _ ⟨rfl, rfl⟩ s.clearJournal s hmirrors r.1 r.2 hclear with ⟨t, ht, hafter⟩
      rw [ht, hafter.eq_after]
      rfl
  | none =>
      cases hs : m s with
      | none => rfl
      | some r =>
          -- With a result in the one store there would be a result in the other.
          have hmirrors : (Rerun.still s s.clearJournal rfl).Mirrors s s.clearJournal :=
            Rerun.mirrors_of_eq s s.clearJournal rfl rfl rfl
          rcases h _ ⟨rfl, rfl⟩ s s.clearJournal hmirrors r.1 r.2 hs with ⟨t, ht, -⟩
          cases hclear.symm.trans ht

/-- The statements of a program do not read what was written before. -/
theorem unread_evalFrom (limit : Nat) (last : Option Value) (ss : Block) :
    Unread (Program.evalFrom (body limit) last ss) := by
  refine .of_repeats fun ρ hstill => ?_
  have hvalue : Option.map ρ.value = id := by
    rw [show ρ.value = id from funext hstill.value_eq, Option.map_id]
  have hrepeats := Rerun.repeats_evalFrom ρ limit ss last
  rwa [hvalue] at hrepeats

end Eval

namespace Program

open Eval (body)

variable {run : BodyRunner} {s t : Store} {st : Stmt}

/-- No statement of a program stops it, among those that are evaluated. -/
def Passing (run : BodyRunner) : Block → Store → Prop
  | [], _ => True
  | st :: ss, s => ∀ v t, st.eval run s = some (v, t) → v.stops = false ∧ Passing run ss t

theorem evalFrom_cons_eq (run : BodyRunner) (last : Option Value) (st : Stmt) (ss : Block)
    (s : Store) : evalFrom run last (st :: ss) s = (st.eval run s).bind fun r =>
      (match r.1 with
        | .returned _ inner => pure (some inner)
        | .error _ cause => do
          Eval.record (.stopped cause)
          return some r.1
        | v => evalFrom run (some v) ss) r.2 :=
  rfl

/-- After a value that does not stop, the program goes on with it. -/
theorem evalFrom_cons {v : Value} (h : st.eval run s = some (v, t)) (hv : v.stops = false)
    (last : Option Value) (ss : Block) :
    evalFrom run last (st :: ss) s = evalFrom run (some v) ss t := by
  rw [evalFrom_cons_eq, h]
  cases v with
  | returned _ _ | error _ _ => cases hv
  | _ => rfl

/-- A value that stops is the last one, whatever comes behind it. What was
    wrapped to be returned is unwrapped, and an error is recorded. -/
theorem evalFrom_stopped {v : Value} (h : st.eval run s = some (v, t)) (hv : v.stops = true)
    (last : Option Value) :
    ∃ events, ∀ ss, evalFrom run last (st :: ss) s
      = some (some (Eval.arrived v), { t with journal := events ++ t.journal }) := by
  simp only [evalFrom_cons_eq, h]
  cases v with
  | returned id inner => exact ⟨[], fun _ => rfl⟩
  | error id cause => exact ⟨[.stopped cause], fun _ => rfl⟩
  | _ => cases hv

/-- A program is its first statements and then the others, if none of the first
    ones stops it. -/
theorem evalFrom_append {front : Block} :
    ∀ {s : Store}, Passing run front s → ∀ (last : Option Value) (back : Block),
      evalFrom run last (front ++ back) s
        = (evalFrom run last front s).bind fun r => evalFrom run r.1 back r.2 := by
  induction front with
  | nil => exact fun _ _ _ => rfl
  | cons st ss ih =>
      intro s h last back
      cases hst : st.eval run s with
      | none =>
          rw [List.cons_append, evalFrom_cons_eq, evalFrom_cons_eq, hst]
          rfl
      | some r =>
          rcases h r.1 r.2 hst with ⟨hv, hpassing⟩
          rw [List.cons_append, evalFrom_cons hst hv, evalFrom_cons hst hv, ih hpassing]

/-- The current scope of a program is the current one again behind it. -/
theorem evalFrom_current {limit : Nat} {last result : Option Value} {ss : Block}
    (h : evalFrom (body limit) last ss s = some (result, t)) : t.current = s.current := by
  have hframe := Discipline.evalFrom_keeps framing_followed
    (fun _ _ _ => ⟨trivial, .of_eq rfl rfl⟩) (fun _ _ _ _ => trivial) limit ss last s trivial
    fun _ _ => trivial
  exact (hframe result t h).2.1.current

end Program

/-- What is reported of a program, and the store it leaves behind. -/
def Report.of (r : Option Value × Store) : Report × Store :=
  (⟨r.1, r.2.output, r.2.journal.reverse⟩, r.2)

namespace Store

variable {s t : Store} {limit : Nat} {scope : ScopeId} {source : String} {program : Block}

theorem run_eq (limit : Nat) (scope : ScopeId) (program : Block) (s : Store) :
    s.run limit scope program
      = (Program.evalFrom (Eval.body limit) none program (s.clearJournal.enter scope)).map
          Report.of := by
  change Option.bind (Program.evalFrom (Eval.body limit) none program _) _ = _
  cases Program.evalFrom (Eval.body limit) none program (s.clearJournal.enter scope) <;> rfl

/-- A text that cannot be parsed is answered with its errors and leaves the
    store alone. -/
theorem interpret_of_errors (h : (parse source).errors ≠ []) (s : Store) :
    s.interpret limit scope source = some (.rejected (parse source).errors, s) := by
  have hstrict : parseStrict source = .error (parse source).errors :=
    if_neg fun hempty => h (List.isEmpty_iff.mp hempty)
  rw [interpret, hstrict]

/-- A text that can be parsed is run. -/
theorem interpret_of_strict (h : parseStrict source = .ok program) (s : Store) :
    s.interpret limit scope source
      = (s.run limit scope program).map fun r => (.ran r.1, r.2) := by
  rw [interpret, h]
  change (s.run limit scope program).bind _ = _
  cases s.run limit scope program <;> rfl

/-- Runs source texts in a scope, one after another. -/
def interpretAll (limit : Nat) (scope : ScopeId) :
    List String → Store → Option (List Response × Store)
  | [], store => some ([], store)
  | source :: sources, store => do
    let (response, between) ← store.interpret limit scope source
    let (responses, last) ← interpretAll limit scope sources between
    return (response :: responses, last)

theorem interpretAll_cons (limit : Nat) (scope : ScopeId) (source : String)
    (sources : List String) (s : Store) :
    s.interpretAll limit scope (source :: sources) = (s.interpret limit scope source).bind fun r =>
      (r.2.interpretAll limit scope sources).map fun q => (r.1 :: q.1, q.2) := by
  rw [interpretAll]
  cases s.interpret limit scope source with
  | none => rfl
  | some r =>
      change (r.2.interpretAll limit scope sources).bind _ = Option.map _ _
      cases r.2.interpretAll limit scope sources <;> rfl

end Store

/-- What is left of a list if only that is kept which is marked. -/
def kept {α : Type} (marked : List (Bool × α)) : List α :=
  (marked.filter Prod.fst).map Prod.snd

namespace Store

variable {s t : Store} {limit : Nat} {scope : ScopeId}

/-- Texts that cannot be parsed may be left out, as many of them as one likes:
    the others are answered the same and leave the same store behind. -/
theorem interpretAll_kept {marked : List (Bool × String)} :
    (∀ line ∈ marked, line.1 = false → (parse line.2).errors ≠ []) → ∀ s : Store,
      s.interpretAll limit scope (kept marked)
        = (s.interpretAll limit scope (marked.map Prod.snd)).map fun r =>
            (kept ((marked.map Prod.fst).zip r.1), r.2) := by
  induction marked with
  | nil => exact fun _ _ => rfl
  | cons line marked ih =>
      intro h s
      have hrest := ih fun line hline => h line (List.mem_cons_of_mem _ hline)
      rcases line with ⟨mark, source⟩
      rw [List.map_cons (f := Prod.snd), interpretAll_cons]
      cases mark with
      | true =>
          change s.interpretAll limit scope (source :: kept marked) = _
          rw [interpretAll_cons]
          cases s.interpret limit scope source with
          | none => rfl
          | some r =>
              simp only [Option.bind_some, hrest, Option.map_map]
              rfl
      | false =>
          -- The store is that of before, so the other texts do what they would do without it.
          rw [interpret_of_errors (h _ List.mem_cons_self rfl)]
          simp only [Option.bind_some, Option.map_map]
          exact hrest s

end Store

/-- What several programs did one after another is what they did as one program.
    The value is that of the last of them, if it has statements. -/
structure Joined (last : Block) (reports : List Report) (t : Store) (whole : Report × Store) :
    Prop where
  /-- The same was printed. -/
  output : String.join (reports.map Report.output) = whole.1.output
  /-- The same happened. -/
  events : (reports.map Report.events).flatten = whole.1.events
  /-- The last one has the value. -/
  result : last ≠ [] → ∃ report, reports.getLast? = some report ∧ report.result = whole.1.result
  /-- The stores that are left behind are the same but for what was written. -/
  store : t.clearJournal = whole.2.clearJournal

/-- One more program in front of the others. -/
theorem Joined.cons {last : Block} {reports : List Report} {t u : Store} {result : Option Value}
    (h : Joined last reports t (Report.of (result, u))) (first : Option Value × Store) :
    Joined last ((Report.of first).1 :: reports) t (Report.of (result, u.after first.2)) where
  output := by
    rw [List.map_cons, String.join_cons, h.output]
    rfl
  events := by
    rw [List.map_cons, List.flatten_cons, h.events]
    exact List.reverse_append.symm
  result hlast := by
    rcases h.result hlast with ⟨report, hreport, hresult⟩
    refine ⟨report, ?_, hresult⟩
    rw [List.getLast?_cons, hreport]
    rfl
  store := h.store

/-- What texts were answered is what one program did that they make up. -/
def Answered (last : Block) (answers : List Response × Store) (whole : Report × Store) : Prop :=
  ∃ reports : List Report, answers.1 = reports.map .ran ∧ Joined last reports answers.2 whole

/-- One more answer in front of the others. -/
theorem Answered.cons {last : Block} {answers : Option (List Response × Store)}
    {whole : Option (Option Value × Store)}
    (h : Option.Rel (Answered last) answers (whole.map Report.of)) (first : Option Value × Store) :
    Option.Rel (Answered last)
      (answers.map fun q => (.ran (Report.of first).1 :: q.1, q.2))
      ((whole.map fun r => (r.1, r.2.after first.2)).map Report.of) := by
  cases whole with
  | none =>
      cases h
      exact .none
  | some r =>
      cases h with
      | some h =>
          rcases h with ⟨reports, hreports, hjoined⟩
          exact .some ⟨(Report.of first).1 :: reports,
            congrArg (Response.ran (Report.of first).1 :: ·) hreports, hjoined.cons first⟩

/-- None of the programs that are run one after another is stopped. -/
def Store.Passing (limit : Nat) (scope : ScopeId) : List Block → Store → Prop
  | [], _ => True
  | program :: programs, s =>
    Program.Passing (Eval.body limit) program (s.clearJournal.enter scope) ∧
      ∀ report t, s.run limit scope program = some (report, t) → Passing limit scope programs t

namespace Store

variable {limit : Nat} {scope : ScopeId} {last : String} {program : Block}

/-- What the statements of a program do is said from the store with nothing
    written in it, and what was written is put in front. -/
theorem evalFrom_after (limit : Nat) (result : Option Value) (ss : Block) (s : Store) :
    Program.evalFrom (Eval.body limit) result ss s
      = (Program.evalFrom (Eval.body limit) result ss (s.clearJournal.enter s.current)).map
          fun r => (r.1, r.2.after s) :=
  Eval.unread_evalFrom limit result ss s

/-- Lines that are not stopped do, one after another, what one program does
    that is made up of their statements. This goes for a program with any value
    behind it, since it comes back to that only if it has no statements. -/
theorem joined {lines : List (String × Block)} (hlast : parseStrict last = .ok program) :
    ∀ {s : Store}, (∀ line ∈ lines, parseStrict line.1 = .ok line.2) →
      Passing limit scope (lines.map Prod.snd) s → ∀ before : Option Value,
      Option.Rel (Answered program)
        (s.interpretAll limit scope (lines.map Prod.fst ++ [last]))
        ((Program.evalFrom (Eval.body limit) before ((lines.map Prod.snd).flatten ++ program)
          (s.clearJournal.enter scope)).map Report.of) := by
  induction lines with
  | nil =>
      intro s _ _ before
      rw [List.map_nil, List.nil_append, interpretAll_cons, interpret_of_strict hlast, run_eq,
        List.map_nil, List.flatten_nil, List.nil_append, Program.evalFrom_last _ before]
      cases Program.evalFrom (Eval.body limit) none program (s.clearJournal.enter scope) with
      | none => exact .none
      | some r =>
          refine .some ⟨[(Report.of r).1], rfl, ?_, ?_, fun hne => ⟨_, rfl, ?_⟩, rfl⟩
          · rw [List.map_singleton, String.join_cons, String.join_nil, String.append_empty]
            rfl
          · exact List.flatten_singleton
          · exact (if_neg hne).symm
  | cons line lines ih =>
      intro s hlines hpassing before
      rcases hpassing with ⟨hfirst, hothers⟩
      rw [List.map_cons, List.cons_append, interpretAll_cons,
        interpret_of_strict (hlines line List.mem_cons_self), List.map_cons, List.flatten_cons,
        List.append_assoc, Program.evalFrom_append hfirst, Program.evalFrom_last _ before]
      rw [run_eq] at hothers ⊢
      cases hrun : Program.evalFrom (Eval.body limit) none line.2 (s.clearJournal.enter scope) with
      | none => exact .none
      | some r =>
          rw [hrun] at hothers
          have hrest := ih (fun line hline => hlines line (List.mem_cons_of_mem _ hline))
            (hothers (Report.of r).1 r.2 rfl)
          -- The next line starts in the scope that is current anyway, with nothing written yet.
          have hcurrent : r.2.current = scope := Program.evalFrom_current hrun
          simp only [Option.map_some, Option.bind_some]
          rw [evalFrom_after, hcurrent]
          exact Answered.cons (hrest _) r

/-- A program that is stopped has evaluated the statements up to the one that
    stops it, and none behind. -/
theorem run_stopped {s t u : Store} {front : Block} {st : Stmt} {before : Option Value} {v : Value}
    (hpassing : Program.Passing (Eval.body limit) front (s.clearJournal.enter scope))
    (hfront : Program.evalFrom (Eval.body limit) none front (s.clearJournal.enter scope)
      = some (before, t))
    (hst : st.eval (Eval.body limit) t = some (v, u)) (hv : v.stops = true) :
    ∃ events, ∀ back, s.run limit scope (front ++ st :: back)
      = some (Report.of (some (Eval.arrived v), { u with journal := events ++ u.journal })) := by
  rcases Program.evalFrom_stopped hst hv before with ⟨events, hstopped⟩
  refine ⟨events, fun back => ?_⟩
  rw [run_eq, Program.evalFrom_append hpassing, hfront, Option.bind_some, hstopped back]
  rfl

end Store

/-- A session of lines and a script, from any store and in any scope, with
    whatever limit, and whether or not the evaluations end. Lines with parse
    errors are answered with them, change nothing, and may be left out. Lines
    without them, of which none is stopped but perhaps the last, have results
    exactly if the program of all their statements has one; then the same is
    printed and bound, and the last line has the value of the program if it has
    statements. A line that is stopped has done what the statements up to that
    one do, and it does the same whatever is written behind. -/
theorem lines_joined (limit : Nat) (scope : ScopeId) (s : Store) :
    (∀ marked : List (Bool × String),
      (∀ line ∈ marked, line.1 = false → (parse line.2).errors ≠ []) →
      (∀ line ∈ marked, line.1 = false → ∀ t : Store,
        t.interpret limit scope line.2 = some (.rejected (parse line.2).errors, t)) ∧
      s.interpretAll limit scope (kept marked)
        = (s.interpretAll limit scope (marked.map Prod.snd)).map fun r =>
            (kept ((marked.map Prod.fst).zip r.1), r.2)) ∧
    (∀ (lines : List (String × Block)) (last : String) (program : Block),
      (∀ line ∈ lines, parseStrict line.1 = .ok line.2) → parseStrict last = .ok program →
      Store.Passing limit scope (lines.map Prod.snd) s →
      Option.Rel (Answered program) (s.interpretAll limit scope (lines.map Prod.fst ++ [last]))
        (s.run limit scope ((lines.map Prod.snd).flatten ++ program))) ∧
    ∀ (front : Block) (before : Option Value) (st : Stmt) (t u : Store) (v : Value),
      Program.Passing (Eval.body limit) front (s.clearJournal.enter scope) →
      Program.evalFrom (Eval.body limit) none front (s.clearJournal.enter scope)
        = some (before, t) →
      st.eval (Eval.body limit) t = some (v, u) → v.stops = true →
      ∃ report after, report.result = some (Eval.arrived v) ∧ report.output = u.output ∧
        after.clearJournal = u.clearJournal ∧
        ∀ source back, parseStrict source = .ok (front ++ st :: back) →
          s.interpret limit scope source = some (.ran report, after) := by
  refine ⟨fun marked h => ⟨fun line hline hmark => ?_, Store.interpretAll_kept h s⟩,
    fun lines last program hlines hlast hpassing => ?_,
    fun front before st t u v hpassing hfront hst hv => ?_⟩
  · exact Store.interpret_of_errors (h line hline hmark)
  · rw [Store.run_eq]
    exact Store.joined hlast hlines hpassing none
  · rcases Store.run_stopped hpassing hfront hst hv with ⟨events, hstopped⟩
    refine ⟨(Report.of (some (Eval.arrived v), { u with journal := events ++ u.journal })).1,
      { u with journal := events ++ u.journal }, rfl, rfl, rfl, fun source back hsource => ?_⟩
    rw [Store.interpret_of_strict hsource, hstopped back]
    rfl

/-- A line that binds a name. -/
def bindingLine : Block :=
  [.bind "a" (.int 1)]

/-- A line that is stopped by its second statement. -/
def returningLine : Block :=
  [.expr (.call (.ident "puts") [.ident "a"]), .ret (.ident "a"),
    .expr (.call (.ident "puts") [.int 2])]

/-- A session of two lines, of which the last one is stopped, and the same with
    a line between them that cannot be parsed. -/
theorem lines_joined_returningLine :
    Store.withRoot.2.interpretAll 1 0 [Program.text bindingLine, Program.text returningLine]
      = (Store.withRoot.2.interpretAll 1 0
          [Program.text bindingLine, "let = 2;", Program.text returningLine]).map
            (fun r => (kept ([true, false, true].zip r.1), r.2)) ∧
    (∃ answers whole,
      Store.withRoot.2.interpretAll 1 0 [Program.text bindingLine, Program.text returningLine]
        = some answers ∧
      Store.withRoot.2.run 1 0 (bindingLine ++ returningLine) = some whole ∧
      Answered returningLine answers whole ∧ whole.1.output = "1\n") ∧
    ∃ report after, report.output = "1\n" ∧
      (Store.withRoot.2.set 0 "a" (.int 0 1)).interpret 1 0 (Program.text returningLine)
        = some (.ran report, after) := by
  have hbinding : parseStrict (Program.text bindingLine) = .ok bindingLine := by
    refine parseStrict_eq_ok (derives_text ?_)
    simp only [bindingLine, Block.WellFormed, Stmt.WellFormed, Expr.WellFormed]
    decide
  have hreturning : parseStrict (Program.text returningLine) = .ok returningLine := by
    refine parseStrict_eq_ok (derives_text ?_)
    simp only [returningLine, Block.WellFormed, Stmt.WellFormed, Expr.WellFormed,
      Expr.AllWellFormed]
    decide
  have hrejected : (parse "let = 2;").errors ≠ [] := by decide +kernel
  refine ⟨?_, ?_, ?_⟩
  · refine ((lines_joined 1 0 Store.withRoot.2).1 [(true, Program.text bindingLine),
      (false, "let = 2;"), (true, Program.text returningLine)] fun line hline hmark => ?_).2
    simp only [List.mem_cons, List.not_mem_nil, or_false] at hline
    rcases hline with rfl | rfl | rfl
    · cases hmark
    · exact hrejected
    · cases hmark
  · have hpassing : Store.Passing 1 0 [bindingLine] Store.withRoot.2 := by
      refine ⟨fun v t h => ?_, fun _ _ _ => trivial⟩
      cases h
      exact ⟨rfl, trivial⟩
    have hjoined := (lines_joined 1 0 Store.withRoot.2).2.1
      [(Program.text bindingLine, bindingLine)] _ _
      (fun line hline => List.mem_singleton.mp hline ▸ hbinding) hreturning hpassing
    have houtput : (Store.withRoot.2.run 1 0 (bindingLine ++ returningLine)).map (·.1.output)
        = some "1\n" := by decide +kernel
    rcases Option.map_eq_some_iff.mp houtput with ⟨whole, hwhole, houtput⟩
    change Option.Rel _ _ (Store.withRoot.2.run 1 0 (bindingLine ++ returningLine)) at hjoined
    rw [hwhole] at hjoined
    -- The program has a report, so the lines have answers.
    cases hanswers : Store.withRoot.2.interpretAll 1 0
        [Program.text bindingLine, Program.text returningLine] with
    | none => cases hanswers ▸ hjoined
    | some answers =>
        cases hanswers ▸ hjoined with
        | some h => exact ⟨answers, whole, rfl, hwhole, h, houtput⟩
  · let s := Store.withRoot.2.set 0 "a" (.int 0 1)
    have hruns : ((do
        let first ← Stmt.eval (Eval.body 1) (.expr (.call (.ident "puts") [.ident "a"]))
          (s.clearJournal.enter 0)
        let second ← Stmt.eval (Eval.body 1) (.ret (.ident "a")) first.2
        return (first.1.stops, second.1.stops, second.2.output)) : Option (Bool × Bool × String))
          = some (false, true, "1\n") := by decide +kernel
    rcases Option.bind_eq_some_iff.mp hruns with ⟨⟨v, t⟩, hputs, hruns⟩
    rcases Option.bind_eq_some_iff.mp hruns with ⟨⟨w, u⟩, hret, hruns⟩
    rcases Prod.mk.inj (Option.some.inj hruns) with ⟨hv, hruns⟩
    rcases Prod.mk.inj hruns with ⟨hw, houtput⟩
    have hpassing : Program.Passing (Eval.body 1) [.expr (.call (.ident "puts") [.ident "a"])]
        (s.clearJournal.enter 0) := by
      intro v' t' h
      cases hputs.symm.trans h
      exact ⟨hv, trivial⟩
    rcases (lines_joined 1 0 s).2.2 _ (some v) _ t u w hpassing
      (Program.evalFrom_cons hputs hv none []) hret hw with ⟨report, after, -, hreport, -, hall⟩
    exact ⟨report, after, hreport.trans houtput, hall _ _ hreturning⟩

end Monkey
