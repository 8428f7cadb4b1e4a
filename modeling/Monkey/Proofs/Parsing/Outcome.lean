import Monkey.Parser.Basic

/-!
# How Parsers End

A calculus for statements about the end of a parser.

`Outcome.Holds` demands that a parser does end, and it says separately what
has to hold if it succeeds and if it fails. Each way to build a parser has an
equivalence that says what it comes down to, so a statement about a composed
parser is rewritten into statements about its parts, token by token. What is
left to do by hand is to bring in what is known about the inner parsers, which
is what `Outcome.Holds.mono` is for.

Whatever a parser does, it goes forward: it takes tokens off the front, adds
errors at the back and leaves as many blocks open as there were. A statement
about what it *read* is only ever wanted of a parser that recorded no error on
the way. `ParseState.Leads` ties the two together, and since errors are never
taken back, `ParseState.Leads.trans` can join what two parsers read one after
the other without looking at errors again.

## Main definitions

* `Outcome.Holds`: What has to hold of the end of a parser.
* `ParseState.next`: The state behind the next token.
* `ParseState.Leads`: From one state to a later one, with what was read in
  between.

## Theorems

* `Parser.holds_bind` and the like: What a statement about the end comes down
  to.
* `ParseState.Leads.trans`: What was read in two steps.
* `ParseState.rest_eq_cons`: A token that is not the end of input is there.
-/

namespace Monkey

/-- A parser came to an end, and in a way that is allowed: the first condition
    is for success and the second one for failure. -/
def Outcome.Holds {α : Type} (outcome : Outcome α) (onOk : α → ParseState → Prop)
    (onFailed : ParseError → ParseState → Prop) : Prop :=
  match outcome with
  | .ok a s => onOk a s
  | .failed e s => onFailed e s
  | .exhausted => False

theorem Outcome.Holds.mono {α : Type} {outcome : Outcome α} {P P' : α → ParseState → Prop}
    {E E' : ParseError → ParseState → Prop} (h : outcome.Holds P E)
    (hok : ∀ a s, P a s → P' a s) (hfailed : ∀ e s, E e s → E' e s) : outcome.Holds P' E' := by
  cases outcome with
  | ok a s => exact hok a s h
  | failed e s => exact hfailed e s h
  | exhausted => exact h

namespace ParseState

/-- The state behind the next token. -/
def next (s : ParseState) : ParseState :=
  { s with rest := s.rest.tail }

/-- The state with one more open block. -/
def opened (s : ParseState) : ParseState :=
  { s with openBlocks := s.openBlocks + 1 }

/-- The state with one open block less. -/
def closed (s : ParseState) : ParseState :=
  { s with openBlocks := s.openBlocks - 1 }

/-- A token that is not the end of input is the first of the unread ones. -/
theorem rest_eq_cons (s : ParseState) {k : Kind} (hk : s.peek.kind = k)
    (hfinish : k ≠ .finish) : s.rest = s.peek :: s.next.rest := by
  unfold peek next at *
  cases hrest : s.rest with
  | nil =>
      rw [hrest] at hk
      exact absurd hk.symm hfinish
  | cons t ts => rfl

theorem next_rest_length (s : ParseState) {k : Kind} (hk : s.peek.kind = k)
    (hfinish : k ≠ .finish) : s.next.rest.length + 1 = s.rest.length :=
  (congrArg List.length (s.rest_eq_cons hk hfinish)).symm

/-- The first state leads to the second one: tokens were consumed and errors
    recorded in between. If none was recorded, something else holds too. -/
structure Leads (s s' : ParseState) (found : Prop) : Prop where
  /-- Tokens are consumed from the front. -/
  rest : s'.rest <:+ s.rest
  /-- The end of input stays where it is. -/
  length : s'.length = s.length
  /-- Errors are added at the end. -/
  errors : s.errors <+: s'.errors
  /-- As many blocks are open as before. -/
  openBlocks : s'.openBlocks = s.openBlocks
  /-- What is known if no error was added. -/
  found : s'.errors = s.errors → found

namespace Leads

variable {s s' s'' : ParseState} {P Q : Prop}

theorem rest_length_le (h : s.Leads s' P) : s'.rest.length ≤ s.rest.length :=
  h.rest.length_le

theorem refl (h : P) : s.Leads s P :=
  ⟨List.suffix_rfl, rfl, List.prefix_rfl, rfl, fun _ => h⟩

theorem imp (h : s.Leads s' P) (hpq : P → Q) : s.Leads s' Q :=
  ⟨h.rest, h.length, h.errors, h.openBlocks, fun he => hpq (h.found he)⟩

/-- What was read in two steps. If there is no new error at the end then there
    was none in the middle. -/
theorem trans (h : s.Leads s' P) (h' : s'.Leads s'' Q) : s.Leads s'' (P ∧ Q) := by
  refine ⟨h'.rest.trans h.rest, h'.length.trans h.length, h.errors.trans h'.errors,
    h'.openBlocks.trans h.openBlocks, fun he => ?_⟩
  -- Errors are only added, so the list in the middle lies between two equal ones.
  have hmid : s'.errors = s.errors := by
    refine (h.errors.eq_of_length_le ?_).symm
    rw [← he]
    exact h'.errors.length_le
  exact ⟨h.found hmid, h'.found (he.trans hmid.symm)⟩

/-- A failure after a step that went well. -/
theorem failed (h : s.Leads s' P) (h' : s'.Leads s'' True) : s.Leads s'' True :=
  (h.trans h').imp fun _ => trivial

/-- Consuming a token goes forward. -/
theorem next (s : ParseState) : s.Leads s.next True :=
  ⟨List.tail_suffix s.rest, rfl, List.prefix_rfl, rfl, fun _ => trivial⟩

/-- Consuming a token that is not the end of input. -/
theorem token {k : Kind} (hk : s.peek.kind = k) (hfinish : k ≠ .finish) :
    s.Leads s.next (s.rest = s.peek :: s.next.rest) :=
  ⟨List.tail_suffix s.rest, rfl, List.prefix_rfl, rfl, fun _ => s.rest_eq_cons hk hfinish⟩

/-- What consumes a token at all starts by consuming the next one. -/
theorem behind_next (h : s.Leads s' P) (hless : s'.rest.length < s.rest.length) :
    s.next.Leads s' True := by
  refine ⟨?_, h.length, h.errors, h.openBlocks, fun _ => trivial⟩
  have hrest := h.rest
  unfold ParseState.next
  cases hs : s.rest with
  | nil =>
      rw [hs] at hless
      exact absurd hless (Nat.not_lt_zero _)
  | cons t ts =>
      rw [hs] at hrest hless
      -- The end is a suffix of what there was, and the whole of it would be too long.
      rcases List.suffix_cons_iff.mp hrest with heq | hsuffix
      · rw [heq] at hless
        exact absurd hless (Nat.lt_irrefl _)
      · exact hsuffix

/-- What happens inside a block, seen from outside. -/
theorem inBlock (h : s.opened.Leads s' P) : s.Leads s'.closed P :=
  ⟨h.rest, h.length, h.errors, by
    have hopen := h.openBlocks
    simp only [opened] at hopen
    simp only [closed, hopen, Nat.add_sub_cancel], h.found⟩

end Leads

theorem skip_suffix (inBlock : Bool) (ts : List Token) : skip inBlock ts <:+ ts := by
  induction ts with
  | nil => exact List.suffix_rfl
  | cons t ts ih =>
      unfold skip
      split
      · exact List.suffix_rfl
      · split
        · exact List.suffix_cons t ts
        · exact ih.trans (List.suffix_cons t ts)

/-- After a recovery there is one error more, so nothing is claimed about what
    was read. -/
theorem leads_recover (s : ParseState) (error : ParseError) (P : Prop) :
    s.Leads (s.recover error) P := by
  refine ⟨?_, rfl, List.prefix_append _ _, rfl, fun he => ?_⟩
  · unfold recover
    simp only
    split
    · exact List.suffix_rfl
    · exact skip_suffix _ _
  · -- There is one error more than before, so the lists differ in length.
    have hlen := congrArg List.length he
    simp only [recover, List.length_append, List.length_singleton] at hlen
    omega

end ParseState

namespace Parser

variable {α β : Type} {s : ParseState} {E : ParseError → ParseState → Prop}

theorem holds_pure {a : α} {P : α → ParseState → Prop} :
    ((pure a : Parser α) s).Holds P E ↔ P a s :=
  Iff.rfl

theorem holds_bind {p : Parser α} {f : α → Parser β} {P : β → ParseState → Prop} :
    ((p >>= f) s).Holds P E ↔ (p s).Holds (fun a s' => (f a s').Holds P E) E := by
  simp only [bind]
  cases p s <;> exact Iff.rfl

theorem holds_ite {c : Prop} [Decidable c] {p q : Parser α} {P : α → ParseState → Prop} :
    ((if c then p else q) s).Holds P E ↔ (c → (p s).Holds P E) ∧ (¬c → (q s).Holds P E) := by
  by_cases hc : c
  · simp only [hc, if_true, true_implies, not_true_eq_false, false_implies, and_true]
  · simp only [hc, if_false, false_implies, not_false_eq_true, true_implies, true_and]

theorem holds_peek {P : Token → ParseState → Prop} : (peek s).Holds P E ↔ P s.peek s :=
  Iff.rfl

theorem holds_take {P : Token → ParseState → Prop} : (take s).Holds P E ↔ P s.peek s.next :=
  Iff.rfl

theorem holds_accept {k : Kind} {P : Bool → ParseState → Prop} :
    (accept k s).Holds P E ↔
      (s.peek.kind = k → P true s.next) ∧ (¬s.peek.kind = k → P false s) := by
  unfold accept
  by_cases h : s.peek.kind = k
  · simp only [h, if_true, not_true_eq_false, false_implies, true_implies, and_true]
    exact Iff.rfl
  · simp only [h, if_false, not_false_eq_true, false_implies, true_implies, true_and]
    exact Iff.rfl

theorem holds_expect {k : Kind} {P : Token → ParseState → Prop} :
    (expect k s).Holds P E ↔
      (s.peek.kind = k → P s.peek s.next) ∧
        (¬s.peek.kind = k → E (.expected k s.peek) s) := by
  unfold expect
  by_cases h : s.peek.kind = k
  · simp only [h, if_true, not_true_eq_false, false_implies, true_implies, and_true]
    exact Iff.rfl
  · simp only [h, if_false, not_false_eq_true, false_implies, true_implies, true_and]
    exact Iff.rfl

theorem holds_inBlock {p : Parser α} {P : α → ParseState → Prop} :
    (inBlock p s).Holds P E ↔
      (p s.opened).Holds (fun a s' => P a s'.closed) (fun e s' => E e s'.closed) := by
  unfold inBlock ParseState.opened
  cases p { s with openBlocks := s.openBlocks + 1 } <;> exact Iff.rfl

theorem holds_recovering {p : Parser α} {P : Option α → ParseState → Prop} :
    (recovering p s).Holds P E ↔
      (p s).Holds (fun a s' => P (some a) s') (fun e s' => P none (s'.recover e)) := by
  unfold recovering
  cases p s <;> exact Iff.rfl

end Parser

end Monkey
