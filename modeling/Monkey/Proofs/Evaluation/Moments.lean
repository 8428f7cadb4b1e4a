import Monkey.Proofs.Evaluation.Chronicle

/-!
# The Moments of a Session

All values that there ever are while some programs are run.

The programs of a session share the scopes of a store, so a value that one of
them has made may turn up in any later one. Its parts are therefore the parts
of all of its programs: of those that have been run and left a store behind, and
of a last one, of which nothing is asked. At the beginning of a part, and at its
end if it has one, there are some values: those that names are bound to, those
that the part holds or has come to, and whatever is found inside of these.

What is known in a chronicle covers all of that. Any two values that there are
in a session, at two moments of whichever parts, are known at one time.

## Main definitions

* `Store.History`: The programs of a session that have been run.
* `Point.Session`: The programs of a session.
* `Point.Of`: The parts of some programs.
* `Point.Moment`: The stores at the beginning and at the end of a part.
* `Point.Shows`: The values that there are at a moment of a part.

## Theorems

* `Store.session_iff`: The stores of a session are those with a history.
* `Chronicle.Knows.shows`: The values at the moments of a part are fine.
* `Chronicle.session_knows`: Any two parts of a session are known at one time.
* `Chronicle.session_moment`, `Chronicle.session_shown`: The stores and the values
  at a moment are good and fine.
* `Chronicle.session_shows`: The values at two moments are so at one time.
-/

namespace Monkey

/-- The programs that have been run in a session, as parts, the latest first,
    and the store they have left behind. -/
inductive Store.History : List Point → Store → Prop where
  | fresh : History [] Store.withRoot.2
  | run {past : List Point} {s s' : Store} {limit : Nat} {program : Block} {report : Report}
    (h : History past s) (hrun : s.run limit Store.withRoot.1 program = some (report, s')) :
    History (.start program s :: past) s'

/-- The stores of a session are the ones that some programs have left behind. -/
theorem Store.session_iff {s : Store} : s.Session ↔ ∃ past, History past s := by
  constructor
  · intro h
    induction h with
    | fresh => exact ⟨[], .fresh⟩
    | run _ hrun ih =>
        rcases ih with ⟨past, hpast⟩
        exact ⟨_, .run hpast hrun⟩
  · rintro ⟨past, h⟩
    induction h with
    | fresh => exact .fresh
    | run _ hrun ih => exact .run ih hrun

/-- The programs of a session, as parts: a last one, and those that have been
    run before it. -/
inductive Point.Session : List Point → Prop where
  | last {past : List Point} {s : Store} (h : Store.History past s) (program : Block) :
    Session (.start program s :: past)

theorem Store.History.starts {past : List Point} {s : Store} (h : History past s) :
    ∀ p ∈ past, ∃ program t, p = .start program t := by
  induction h with
  | fresh => exact fun p hp => absurd hp List.not_mem_nil
  | run _ _ ih =>
      intro p hp
      rcases List.mem_cons.mp hp with rfl | hp
      · exact ⟨_, _, rfl⟩
      · exact ih p hp

theorem Point.Session.starts {programs : List Point} (h : Session programs) :
    ∀ p ∈ programs, ∃ program s, p = .start program s := by
  rcases h with ⟨hpast, program⟩
  intro p hp
  rcases List.mem_cons.mp hp with rfl | hp
  · exact ⟨_, _, rfl⟩
  · exact hpast.starts p hp

/-- A part of one of some programs. -/
def Point.Of (q : Point) (programs : List Point) : Prop :=
  ∃ p ∈ programs, Within p q

theorem Point.Of.begins {programs : List Point} {p q : Point} (h : p.Of programs)
    (hq : Begins p q) : q.Of programs := by
  rcases h with ⟨start, hstart, hwithin⟩
  exact ⟨start, hstart, hwithin.tail hq⟩

theorem Point.comes_start {limit : Nat} {program : Block} {s s' : Store} {report : Report}
    (h : s.run limit Store.withRoot.1 program = some (report, s')) :
    (Point.start program s).Comes .done s' := by
  rcases Option.bind_eq_some_iff.mp h with ⟨⟨result, after⟩, heval, hreport⟩
  rcases Prod.mk.inj (Option.some.inj hreport) with ⟨-, rfl⟩
  exact comes_statements heval

/-- The store at the beginning of a part, or the one at its end. -/
def Point.Moment (p : Point) (t : Store) : Prop :=
  t = p.store ∨ ∃ a, p.Comes a t

/-- The values that belong to a task. -/
def Task.values : Task → List Value
  | .pairs slots _ => slots.flatMap fun slot => [slot.key, slot.value]
  | .block last _ => [last]
  | .call callee args => callee :: args
  | _ => []

theorem Task.Over.of_mem {P : Value → Prop} {t : Task} (h : t.Over P) {v : Value}
    (hv : v ∈ t.values) : P v := by
  cases t with
  | pairs slots ps =>
      rcases List.mem_flatMap.mp hv with ⟨slot, hslot, hv⟩
      rcases List.mem_cons.mp hv with rfl | hv
      · exact (h slot hslot).1
      · exact List.mem_singleton.mp hv ▸ (h slot hslot).2
  | block last ss => exact List.mem_singleton.mp hv ▸ h
  | call callee args =>
      rcases List.mem_cons.mp hv with rfl | hv
      · exact h.1
      · exact h.2 v hv
  | _ => exact absurd hv List.not_mem_nil

/-- The values that a part has come to. -/
def Finding.values : Finding → List Value
  | .value v => [v]
  | .list (.ok vs) => vs
  | .list (.error v) => [v]
  | .done => []

/-- At the beginning of a part, or at its end, there is a store and a value that
    is bound there or belongs to the part, or is found inside of such a value. -/
inductive Point.Shows (p : Point) : Store → Value → Prop where
  /-- It is bound at the beginning. -/
  | bound {u v : Value} (hu : p.store.Binds u) (hin : v.Inside u) : Shows p p.store v
  /-- It belongs to the part. -/
  | held {u v : Value} (hu : u ∈ p.task.values) (hin : v.Inside u) : Shows p p.store v
  /-- It is bound at the end. -/
  | left {a : Finding} {s : Store} {u v : Value} (h : p.Comes a s) (hu : s.Binds u)
    (hin : v.Inside u) : Shows p s v
  /-- It is what the part has come to. -/
  | found {a : Finding} {s : Store} {u v : Value} (h : p.Comes a s) (hu : u ∈ a.values)
    (hin : v.Inside u) : Shows p s v

theorem Point.Shows.inside {p : Point} {s : Store} {u v : Value} (h : p.Shows s v)
    (hu : u.Inside v) : p.Shows s u := by
  cases h with
  | bound hw hin => exact .bound hw (hu.trans hin)
  | held hw hin => exact .held hw (hu.trans hin)
  | left h hw hin => exact .left h hw (hu.trans hin)
  | found h hw hin => exact .found h hw (hu.trans hin)

/-- What is bound at a moment is there. -/
theorem Point.Moment.shows {p : Point} {s : Store} {v : Value} (h : p.Moment s) (hv : s.Binds v) :
    p.Shows s v := by
  rcases h with rfl | ⟨a, ha⟩
  · exact .bound hv (.refl v)
  · exact .left ha hv (.refl v)

/-- What is called belongs to the call. -/
theorem Point.Shows.callee {f : Value} {args : List Value} {s : Store} :
    Shows ⟨.call f args, s⟩ s f :=
  .held List.mem_cons_self (.refl f)

namespace Chronicle

variable {W : Type} {c : Chronicle W} {w₀ : W} {s : Store} {past : List Point}

theorem Holds.of_mem {w : W} {a : Finding} (h : c.Holds w a) {v : Value} (hv : v ∈ a.values) :
    c.fine w v := by
  cases a with
  | value u => exact List.mem_singleton.mp hv ▸ h
  | list found =>
      cases found with
      | ok vs => exact (h v hv).1
      | error u => exact List.mem_singleton.mp hv ▸ h
  | done => exact absurd hv List.not_mem_nil

/-- The store at a moment of a part is good, by what was known then. -/
theorem Knows.moment {w : W} {p : Point} (hp : c.Knows w p) {t : Store} (ht : p.Moment t) :
    ∃ w₁, c.grows w₁ w ∧ c.good w₁ t := by
  rcases ht with rfl | ⟨a, ha⟩
  · rcases hp.ready with ⟨w₁, hgrows, hgood, -⟩
    exact ⟨w₁, hgrows, hgood⟩
  · rcases hp.found a t ha with ⟨w₁, hgrows, hgood, -⟩
    exact ⟨w₁, hgrows, hgood⟩

/-- What there is at a moment of a part is fine, by what was known then. -/
theorem Knows.shows (h : c.Followed) {w : W} {p : Point} (hp : c.Knows w p) {t : Store}
    {v : Value} (hv : p.Shows t v) : ∃ w₁, c.grows w₁ w ∧ c.good w₁ t ∧ c.fine w₁ v := by
  rcases hp.ready with ⟨w₁, hgrows₁, hgood, hvalues⟩
  cases hv with
  | bound hu hin => exact ⟨w₁, hgrows₁, hgood, h.inside (h.bound hgood hu) hin⟩
  | held hu hin => exact ⟨w₁, hgrows₁, hgood, h.inside (hvalues.of_mem hu).1 hin⟩
  | left hcomes hu hin =>
      rcases hp.found _ _ hcomes with ⟨w₂, hgrows₂, hgood₂, -⟩
      exact ⟨w₂, hgrows₂, hgood₂, h.inside (h.bound hgood₂ hu) hin⟩
  | found hcomes hu hin =>
      rcases hp.found _ _ hcomes with ⟨w₂, hgrows₂, hgood₂, hholds⟩
      exact ⟨w₂, hgrows₂, hgood₂, h.inside (hholds.of_mem hu) hin⟩

/-- A program starts as it should. -/
theorem ready_start (h : c.Followed) {w : W} (hstart : c.good w₀ Store.withRoot.2)
    (hgrows : c.grows w₀ w) (hs : c.good w s) (program : Block) :
    c.Ready w (.start program s) :=
  ⟨h.leaves hstart hgrows (h.cleared hs), trivial⟩

/-- All that has happened in a session is known after it. -/
theorem history_knows (h : c.Followed) (hstart : c.good w₀ Store.withRoot.2)
    (hpast : Store.History past s) :
    (∀ p ∈ past, c.allowed p) →
      ∃ w, c.grows w₀ w ∧ c.good w s ∧ ∀ q : Point, q.Of past → c.Knows w q := by
  induction hpast with
  | fresh =>
      intro _
      refine ⟨w₀, c.refl w₀, hstart, fun q hq => ?_⟩
      rcases hq with ⟨p, hp, -⟩
      exact absurd hp List.not_mem_nil
  | @run past s s' limit program report _ hrun ih =>
      intro hallowed
      rcases ih fun p hp => hallowed p (List.mem_cons_of_mem _ hp) with
        ⟨w, hgrows, hs, hknows⟩
      have hcomes := Point.comes_start hrun
      rcases learns h hcomes.acc w _ _ (ready_start h hstart hgrows hs program)
        (hallowed _ List.mem_cons_self) hcomes with ⟨w', hgrows', hfound, hlearned⟩
      refine ⟨w', c.trans hgrows hgrows', hfound.1, fun q hq => ?_⟩
      rcases hq with ⟨p, hp, hwithin⟩
      rcases List.mem_cons.mp hp with rfl | hp
      · exact hlearned q hwithin
      · exact (hknows q ⟨p, hp, hwithin⟩).mono hgrows'

/-- Any two parts of the programs of a session are known at some time, both of
    them, even if the last program does not end. -/
theorem session_knows (h : c.Followed) {programs : List Point} (hsession : Point.Session programs)
    (hallowed : ∀ p ∈ programs, c.allowed p) {q r : Point} (hq : q.Of programs)
    (hr : r.Of programs) : ∃ w, c.Knows w q ∧ c.Knows w r := by
  rcases hsession with ⟨hpast, program⟩
  rcases h.start with ⟨w₀, hstart⟩
  rcases history_knows h hstart hpast fun p hp => hallowed p (List.mem_cons_of_mem _ hp) with
    ⟨w, hgrows, hs, hknows⟩
  have hready := ready_start h hstart hgrows hs program
  have hcurrent := hallowed _ List.mem_cons_self
  rcases hq with ⟨p, hp, hq⟩
  rcases hr with ⟨p', hp', hr⟩
  rcases List.mem_cons.mp hp with rfl | hp
  · rcases List.mem_cons.mp hp' with rfl | hp'
    · rcases knows_both h hq hr hready hcurrent with ⟨w', -, hboth⟩
      exact ⟨w', hboth⟩
    · rcases Chronicle.knows h hq hready hcurrent with ⟨w', hgrows', hq⟩
      exact ⟨w', hq, (hknows r ⟨p', hp', hr⟩).mono hgrows'⟩
  · rcases List.mem_cons.mp hp' with rfl | hp'
    · rcases Chronicle.knows h hr hready hcurrent with ⟨w', hgrows', hr⟩
      exact ⟨w', (hknows q ⟨p, hp, hq⟩).mono hgrows', hr⟩
    · exact ⟨w, hknows q ⟨p, hp, hq⟩, hknows r ⟨p', hp', hr⟩⟩

/-- The store at a moment of a session is good. -/
theorem session_moment (h : c.Followed) {programs : List Point} (hsession : Point.Session programs)
    (hallowed : ∀ p ∈ programs, c.allowed p) {p : Point} (hp : p.Of programs) {t : Store}
    (ht : p.Moment t) : ∃ w, c.good w t := by
  rcases session_knows h hsession hallowed hp hp with ⟨w, hknows, -⟩
  rcases hknows.moment ht with ⟨w₁, -, hgood⟩
  exact ⟨w₁, hgood⟩

/-- What there is at a moment of a session is fine. -/
theorem session_shown (h : c.Followed) {programs : List Point} (hsession : Point.Session programs)
    (hallowed : ∀ p ∈ programs, c.allowed p) {p : Point} (hp : p.Of programs) {t : Store}
    {v : Value} (hv : p.Shows t v) : ∃ w, c.good w t ∧ c.fine w v := by
  rcases session_knows h hsession hallowed hp hp with ⟨w, hknows, -⟩
  rcases hknows.shows h hv with ⟨w₁, -, hgood, hfine⟩
  exact ⟨w₁, hgood, hfine⟩

/-- What there is at two moments of a session is fine by what is known at one
    time. -/
theorem session_shows (h : c.Followed) {programs : List Point} (hsession : Point.Session programs)
    (hallowed : ∀ p ∈ programs, c.allowed p) {p q : Point} (hp : p.Of programs)
    (hq : q.Of programs) {t t' : Store} {v u : Value} (hv : p.Shows t v) (hu : q.Shows t' u) :
    ∃ w, (∃ w₁, c.grows w₁ w ∧ c.good w₁ t ∧ c.fine w₁ v) ∧
      ∃ w₂, c.grows w₂ w ∧ c.good w₂ t' ∧ c.fine w₂ u := by
  rcases session_knows h hsession hallowed hp hq with ⟨w, hknows, hknows'⟩
  exact ⟨w, hknows.shows h hv, hknows'.shows h hu⟩

end Chronicle

end Monkey
