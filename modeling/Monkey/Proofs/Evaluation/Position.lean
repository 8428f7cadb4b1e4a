import Monkey.Proofs.Evaluation.Frame
import Monkey.Proofs.Evaluation.Moments

/-!
# Where a Part Stands

The place in a program that a part of its evaluation is at.

A position is the way from a piece of syntax out to the program: the piece
itself, what it is an immediate constituent of, and so on. Only expressions and
statements are steps of it. Lists of arguments and blocks are not, since what
they hold belongs to the call, the condition or the function around them. How
many function literals are met on the way outwards is read off a position and
has nothing to do with evaluation.

A part of an evaluation stands where the part stands that has begun it, one step
further in if it is a part of its own. There is one exception, and it is why
this has to be said at all: the body of a function stands where the function was
made, and not where it is called. `Point.Stands` finds the place by the number
of the function, which is the number that was free when its literal was
evaluated.

## Main definitions

* `Phrase`, `Phrase.parts`: Pieces of syntax and their constituents.
* `Position.In`: A position in a program.
* `nesting`: How many function literals enclose a position.
* `Point.Stands`: Where a part stands.
* `Value.MadeAt`: Where a function was made.

## Theorems

* `Begins.phrases`: What a part begins is left for it to do.
* `Begins.frame`: Without a call, the current scope stays.
* `Point.Stands.inProgram`: Parts stand at positions in their programs.
-/

namespace Monkey

/-- A piece of syntax. -/
inductive Phrase where
  | expr (e : Expr)
  | stmt (st : Stmt)

/-- The immediate constituents of a piece of syntax. Blocks are passed over:
    their statements belong to what the block belongs to. -/
def Phrase.parts : Phrase → List Phrase
  | expr (.unary _ e) => [expr e]
  | expr (.binary _ e f) => [expr e, expr f]
  | expr (.cond e b none) => expr e :: b.map stmt
  | expr (.cond e b (some d)) => expr e :: (b.map stmt ++ d.map stmt)
  | expr (.fn _ b) => b.map stmt
  | expr (.call e es) => expr e :: es.map expr
  | expr (.array es) => es.map expr
  | expr (.index e f) => [expr e, expr f]
  | expr (.map ps) => ps.flatMap fun p => [expr p.1, expr p.2]
  | stmt (.bind _ e) => [expr e]
  | stmt (.ret e) => [expr e]
  | stmt (.expr e) => [expr e]
  | _ => []

/-- A function literal. -/
def Phrase.isFn : Phrase → Bool
  | expr (.fn _ _) => true
  | _ => false

namespace Position

/-- What may stand one step further in than a position of a program. -/
def parts (program : Block) : List Phrase → List Phrase
  | [] => program.map .stmt
  | a :: _ => a.parts

/-- A position in a program, listed from the innermost piece outwards. -/
inductive In (program : Block) : List Phrase → Prop where
  /-- The program itself. -/
  | whole : In program []
  /-- One step further in. -/
  | part {position : List Phrase} {a : Phrase} (h : In program position)
    (ha : a ∈ parts program position) : In program (a :: position)

end Position

/-- How many function literals there are around the piece of syntax at a
    position, itself not counted. -/
def nesting (position : List Phrase) : Nat :=
  position.tail.countP Phrase.isFn

namespace Task

/-- The piece of syntax that a task is to evaluate, if it is a single one. -/
def phrase? : Task → Option Phrase
  | expr e => some (.expr e)
  | stmt st => some (.stmt st)
  | _ => none

/-- The pieces of syntax that are left for a task to begin. -/
def phrases : Task → List Phrase
  | expr e => (Phrase.expr e).parts
  | list es => es.map .expr
  | pairs _ ps => ps.flatMap fun p => [.expr p.1, .expr p.2]
  | stmt st => (Phrase.stmt st).parts
  | block _ ss => ss.map .stmt
  | call _ _ => []
  | statements ss => ss.map .stmt

/-- The position of a task that is begun at a position. -/
def position (outside : List Phrase) (t : Task) : List Phrase :=
  t.phrase?.toList ++ outside

/-- How many function literals there are around what a task evaluates. -/
def enclosing (position : List Phrase) (t : Task) : Nat :=
  match t.phrase? with
  | some _ => nesting position
  | none => position.countP Phrase.isFn

end Task

/-- Without a call, a part begins a piece of syntax that was left for it to do,
    or carries on with such pieces. -/
theorem Begins.phrases {p q : Point} (h : Begins p q) (hcall : ∀ f args, p.task ≠ .call f args) :
    match q.task.phrase? with
    | some a => a ∈ p.task.phrases ∧ q.task.phrases = a.parts
    | none => ∀ a ∈ q.task.phrases, a ∈ p.task.phrases := by
  cases h with
  | body _ => exact absurd rfl (hcall _ _)
  | @test e b d s | @consequence e b d _ _ _ _ _ =>
      cases d <;> simp +contextual [Task.phrase?, Task.phrases, Phrase.parts]
  | _ => simp +contextual [Task.phrase?, Task.phrases, Phrase.parts]

/-- A function literal begins nothing. -/
theorem Begins.not_fn {p q : Point} (h : Begins p q) {a : Phrase} (ha : p.task.phrase? = some a) :
    a.isFn = false := by
  rcases p with ⟨t, s⟩
  cases t with
  | expr e =>
      cases Option.some.inj ha
      cases e with
      | fn params b => exact nomatch h
      | _ => rfl
  | stmt st =>
      cases Option.some.inj ha
      rfl
  | _ => cases ha

/-- Without a call, what a part begins has the current scope of the part, and
    all scopes are enclosed by what they were enclosed by. -/
theorem Begins.frame {p q : Point} (h : Begins p q) (hcall : ∀ f args, p.task ≠ .call f args) :
    p.store.Frame q.store := by
  have hexpr : ∀ {e : Expr} {s s₁ : Store} {v : Value},
      Point.Passes ⟨.expr e, s⟩ v s₁ → s.Frame s₁ := fun {e s _ _} hv =>
    (Discipline.Ready.passes framing_followed (p := ⟨.expr e, s⟩) ⟨trivial, trivial⟩ hv).2.1
  have hstmt : ∀ {st : Stmt} {s s₁ : Store} {v : Value},
      Point.Passes ⟨.stmt st, s⟩ v s₁ → s.Frame s₁ := fun {st s _ _} hv =>
    (Discipline.Ready.passes framing_followed (p := ⟨.stmt st, s⟩) ⟨trivial, trivial⟩ hv).2.1
  cases h with
  | body _ => exact absurd rfl (hcall _ _)
  | right hv | consequence hv _ | alternative hv _ | arguments hv | index hv | others hv
  | value hv _ => exact hexpr hv
  | @application e es s s₁ s₂ f vs limit hv hargs =>
      have hbody := Discipline.body_keeps framing_followed limit
      exact (hexpr hv).trans
        (Discipline.list_keeps framing_followed hbody es s₁ trivial _ _ hargs).2.1
  | slot hk _ hv => exact (hexpr hk).trans (hexpr hv)
  | next hv | statements hv => exact hstmt hv
  | _ => exact .of_eq rfl rfl

namespace Point

/-- A part stands at a position of one of some programs. -/
inductive Stands (programs : List Point) : List Phrase → Point → Prop where
  /-- A program stands at its own beginning. -/
  | start {p : Point} (h : p ∈ programs) : Stands programs [] p
  /-- What begins without a call stands inside of what has begun it. -/
  | part {position : List Phrase} {p q : Point} (h : Stands programs position p)
    (hq : Begins p q) (hcall : ∀ f args, p.task ≠ .call f args) :
    Stands programs (q.task.position position) q
  /-- The body of a function stands inside of the literal that has made it. -/
  | body {position position' : List Phrase} {params : List String} {b : Block}
    {args : List Value} {s₀ s : Store}
    (hmade : Stands programs position ⟨.expr (.fn params b), s₀⟩)
    (h : Stands programs position' ⟨.call (.fn s₀.nextId params b s₀.current) args, s⟩)
    (hlen : args.length = params.length) :
    Stands programs position ⟨.block .null b, s.calling s₀.current (params.zip args)⟩

end Point

/-- A function was made by a literal at a position: the literal was evaluated
    when the number of the function was free, in the scope of the function. -/
def Value.MadeAt (programs : List Point) (position : List Phrase) (f : Value) : Prop :=
  ∃ params b s₀, f = .fn s₀.nextId params b s₀.current ∧
    Point.Stands programs position ⟨.expr (.fn params b), s₀⟩

namespace Point

variable {programs : List Point} {position : List Phrase} {p : Point}

/-- A part that stands somewhere is a part of the programs. -/
theorem Stands.of (h : Stands programs position p) : p.Of programs := by
  induction h with
  | start h => exact ⟨_, h, .refl⟩
  | part _ hq _ ih => exact ih.begins hq
  | body _ _ hlen _ ih => exact ih.begins (.body hlen)

/-- Where a part stands there is the piece of syntax that it evaluates. -/
theorem Stands.head (hprograms : ∀ p ∈ programs, p.task.phrase? = none)
    (h : Stands programs position p) {a : Phrase} (ha : p.task.phrase? = some a) :
    ∃ outside, position = a :: outside := by
  cases h with
  | start h =>
      rw [hprograms p h] at ha
      cases ha
  | @part outside _ _ _ _ _ =>
      refine ⟨outside, ?_⟩
      rw [Task.position, ha]
      rfl
  | body _ _ _ => cases ha

/-- A part stands at a position of its program, and what is left for it to begin
    may stand one step further in. -/
theorem Stands.inProgram (hprograms : ∀ p ∈ programs, ∃ program s, p = .start program s)
    (h : Stands programs position p) :
    ∃ program s, Point.start program s ∈ programs ∧ Position.In program position ∧
      ∀ a ∈ p.task.phrases, a ∈ Position.parts program position := by
  induction h with
  | @start p h =>
      rcases hprograms p h with ⟨program, s, rfl⟩
      exact ⟨program, s, h, .whole, fun a ha => ha⟩
  | @part outside p q _ hq hcall ih =>
      rcases ih with ⟨program, s, hstart, hin, hparts⟩
      refine ⟨program, s, hstart, ?_⟩
      have hphrases := hq.phrases hcall
      unfold Task.position
      cases hphrase : q.task.phrase? with
      | none =>
          simp only [hphrase] at hphrases
          exact ⟨hin, fun a ha => hparts a (hphrases a ha)⟩
      | some a =>
          simp only [hphrase] at hphrases
          refine ⟨.part hin (hparts a hphrases.1), fun b hb => ?_⟩
          rw [hphrases.2] at hb
          exact hb
  | @body outside position' params b args s₀ s hmade h hlen ih _ =>
      rcases ih with ⟨program, t, hstart, hin, hparts⟩
      have hphrase : ∀ p ∈ programs, p.task.phrase? = none := by
        intro p hp
        rcases hprograms p hp with ⟨program, s, rfl⟩
        rfl
      rcases hmade.head hphrase (a := .expr (.fn params b)) rfl with ⟨rest, rfl⟩
      exact ⟨program, t, hstart, hin, fun a ha => ha⟩

end Point

end Monkey
