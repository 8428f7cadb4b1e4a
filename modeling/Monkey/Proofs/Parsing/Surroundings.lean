import Monkey.Proofs.Parsing.Pairing

/-!
# What Surrounds a Text

A parser does the same to a text whatever is around it.

Around the tokens that a parser is meant to read there may be errors that were
recorded before, further tokens behind, and a different place where the end of
input stands. `Surroundings` are all of this together. A parser that is run
within them may see nothing of them, and that has two reasons. Either no
tokens stand behind the text, and the end of input is where it was. Or the
text ends with a semicolon and has no braces. A semicolon is consumed as the
end of a statement, or as a token that cannot start an expression, which ends
its statement as well, and the skipping after an error does not go past it.
Without braces no block is ever entered, so this is all that can happen.

`Parser.Follows` relates two parsers, and the second one is run within
surroundings. That they are two is for the fuel, of which the second one may
have more. A text and the same text within surroundings make up a pairing, so
the result depends neither on the surroundings nor on the fuel.

## Main definitions

* `Segment`: Tokens without braces that end with a semicolon.
* `Surroundings`: Errors in front and tokens behind.
* `ParseState.within`: A state within surroundings.
* `Surroundings.Apart`, `Surroundings.Ended`: What is read is kept apart from
  what is behind it.
* `Parser.Follows`: A parser does within surroundings what another one does.
* `Surroundings.following`: A text, paired with itself within surroundings.

## Theorems

* `Segment.skip_append`: Where the skipping ends.
* `Surroundings.following_kept`: All routines do the same within surroundings.
* `Parser.follows_expression`: Expressions.
* `Parser.follows_recovering`: Statements, with the semicolon behind them.
* `Parser.follows_program`: Programs with nothing behind them.
-/

namespace Monkey

/-- Tokens without braces, with a semicolon as the last one. -/
inductive Segment : List Token → Prop where
  | last {t : Token} (ht : t.kind = .semicolon) : Segment [t]
  | cons {t : Token} {ts : List Token} (hl : t.kind ≠ .leftBrace) (hr : t.kind ≠ .rightBrace)
    (h : Segment ts) : Segment (t :: ts)

/-- Tokens without braces and a semicolon behind them. -/
theorem segment_append {ts : List Token} {semi : Token}
    (h : ∀ t ∈ ts, t.kind ≠ .leftBrace ∧ t.kind ≠ .rightBrace) (hsemi : semi.kind = .semicolon) :
    Segment (ts ++ [semi]) := by
  induction ts with
  | nil => exact .last hsemi
  | cons t ts ih =>
      rcases List.forall_mem_cons.mp h with ⟨ht, hts⟩
      exact .cons ht.1 ht.2 (ih hts)

namespace Segment

variable {t : Token} {ts : List Token}

/-- Behind a token there is a semicolon to come, or it was the last one. -/
theorem tail (h : Segment (t :: ts)) : Segment ts ∨ t.kind = .semicolon ∧ ts = [] := by
  cases h with
  | last ht => exact .inr ⟨ht, rfl⟩
  | cons _ _ h => exact .inl h

theorem ne_brace (h : Segment (t :: ts)) : t.kind ≠ .leftBrace ∧ t.kind ≠ .rightBrace := by
  cases h with
  | last ht =>
      rw [ht]
      exact ⟨by decide, by decide⟩
  | cons hl hr _ => exact ⟨hl, hr⟩

/-- The skipping stops at the last semicolon at the latest. -/
theorem skip_append (h : Segment ts) (inBlock : Bool) (behind : List Token) :
    ParseState.skip inBlock (ts ++ behind) = ParseState.skip inBlock ts ++ behind ∧
      (Segment (ParseState.skip inBlock ts) ∨ ParseState.skip inBlock ts = []) := by
  induction h with
  | @last t ht =>
      have hbrace : (inBlock && t.kind == .rightBrace) = false := by
        rw [ht]
        cases inBlock <;> rfl
      have hsemi : (t.kind == .semicolon) = true := beq_iff_eq.mpr ht
      simp only [List.cons_append, ParseState.skip, hbrace, hsemi, if_true, Bool.false_eq_true,
        if_false, List.nil_append, or_true, and_self]
  | @cons t ts _ hr h ih =>
      have hbrace : (inBlock && t.kind == .rightBrace) = false := by
        rw [beq_false_of_ne hr, Bool.and_false]
      simp only [List.cons_append, ParseState.skip, hbrace, Bool.false_eq_true, if_false]
      by_cases hsemi : (t.kind == .semicolon) = true
      · rw [if_pos hsemi, if_pos hsemi]
        exact ⟨rfl, .inl h⟩
      · rw [if_neg hsemi, if_neg hsemi]
        exact ih

end Segment

/-- What may be around the tokens that a parser reads. -/
structure Surroundings where
  /-- The errors that were recorded before. -/
  errors : List ParseError
  /-- The tokens behind those that are read. -/
  tokens : List Token
  /-- Where the end of input would stand if they were the only ones. -/
  inner : Nat
  /-- Where the end of input stands. -/
  outer : Nat

/-- A state within surroundings. -/
def ParseState.within (s : ParseState) (c : Surroundings) : ParseState :=
  ⟨s.rest ++ c.tokens, c.outer, c.errors ++ s.errors, s.openBlocks⟩

namespace Surroundings

/-- Nothing is behind the tokens that are read. -/
def Bare (c : Surroundings) : Prop :=
  c.tokens = [] ∧ c.inner = c.outer

/-- What is read next is not behind the tokens that are to be read. -/
structure Apart (c : Surroundings) (s : ParseState) : Prop where
  /-- The end of input stands where it should. -/
  length : s.length = c.inner
  /-- There is nothing behind, or a semicolon comes before that. -/
  apart : c.Bare ∨ Segment s.rest

/-- As before, or all that is to be read has been read. -/
structure Ended (c : Surroundings) (s : ParseState) : Prop where
  /-- The end of input stands where it should. -/
  length : s.length = c.inner
  /-- There is nothing behind, or a semicolon comes before that or came just
      now. -/
  ended : c.Bare ∨ Segment s.rest ∨ s.rest = []

variable {c : Surroundings} {s : ParseState}

theorem Apart.ended (h : c.Apart s) : c.Ended s :=
  ⟨h.length, h.apart.imp_right .inl⟩

/-- Where nothing is behind, everything is kept apart from it. -/
theorem Ended.apart (h : c.Ended s) (hbare : c.Bare) : c.Apart s :=
  ⟨h.length, .inl hbare⟩

theorem Apart.peek_within (h : c.Apart s) : (s.within c).peek = s.peek := by
  unfold ParseState.peek ParseState.within
  rcases h.apart with ⟨htokens, hlength⟩ | hsegment
  · rw [htokens, List.append_nil, h.length, hlength]
  · cases hrest : s.rest with
    | nil =>
        rw [hrest] at hsegment
        cases hsegment
    | cons t ts => rfl

theorem Apart.next_within (h : c.Apart s) : (s.within c).next = s.next.within c := by
  unfold ParseState.next ParseState.within
  rcases h.apart with ⟨htokens, -⟩ | hsegment
  · simp only [htokens, List.append_nil]
  · cases hrest : s.rest with
    | nil =>
        rw [hrest] at hsegment
        cases hsegment
    | cons t ts => rfl

/-- Whatever token is consumed, there is a semicolon to come or it was the
    last one. -/
theorem Apart.next_ended (h : c.Apart s) : c.Ended s.next := by
  refine ⟨h.length, h.apart.imp_right fun hsegment => ?_⟩
  unfold ParseState.next
  cases hrest : s.rest with
  | nil =>
      rw [hrest] at hsegment
      cases hsegment
  | cons t ts =>
      rw [hrest] at hsegment
      exact hsegment.tail.imp_right And.right

/-- A token other than a semicolon is not the last one. -/
theorem Apart.next (h : c.Apart s) (hk : s.peek.kind ≠ .semicolon) : c.Apart s.next := by
  refine ⟨h.length, h.apart.imp_right fun hsegment => ?_⟩
  unfold ParseState.next
  unfold ParseState.peek at hk
  cases hrest : s.rest with
  | nil =>
      rw [hrest] at hsegment
      cases hsegment
  | cons t ts =>
      rw [hrest] at hsegment hk
      exact hsegment.tail.resolve_right fun hlast => hk hlast.1

/-- A brace is ahead only where nothing is behind. -/
theorem Apart.bare_of_brace (h : c.Apart s)
    (hk : s.peek.kind = .leftBrace ∨ s.peek.kind = .rightBrace) : c.Bare := by
  refine h.apart.resolve_right fun hsegment => ?_
  unfold ParseState.peek at hk
  cases hrest : s.rest with
  | nil =>
      rw [hrest] at hsegment
      cases hsegment
  | cons t ts =>
      rw [hrest] at hsegment hk
      rcases hk with hk | hk
      · exact hsegment.ne_brace.1 hk
      · exact hsegment.ne_brace.2 hk

end Surroundings

/-- An outcome within surroundings is the same as without them, and on success
    some condition holds of the state. A failure that leaves no semicolon to
    come has consumed the last one. -/
def Outcome.Follows {α : Type} (inner : Outcome α) (c : Surroundings) (P : ParseState → Prop)
    (outer : Outcome α) : Prop :=
  match inner with
  | .ok a s => outer = .ok a (s.within c) ∧ P s
  | .failed e s =>
    outer = .failed e (s.within c) ∧
      (c.Apart s ∨ ParseState.endsStatement e = true ∧ c.Ended s)
  | .exhausted => True

namespace Parser

variable {α β : Type} {c : Surroundings} {s : ParseState}

/-- Within surroundings, the second parser does from a state what the first
    one does without them, unless that one runs out of fuel. -/
def Follows (c : Surroundings) (P : ParseState → Prop) (s : ParseState) (p p' : Parser α) : Prop :=
  (p s).Follows c P (p' (s.within c))

/-- One parser has all results of another one within the same surroundings. -/
def FollowsApart (c : Surroundings) (p p' : Parser α) : Prop :=
  ∀ s, c.Apart s → Follows c c.Apart s p p'

end Parser

namespace Surroundings

/-- A recovery within surroundings. It passes the last semicolon only if that
    was consumed by the error. -/
theorem recover_within {c : Surroundings} {e : ParseError} {s : ParseState}
    (h : c.Apart s ∨ ParseState.endsStatement e = true ∧ c.Ended s) :
    (s.within c).recover e = (s.recover e).within c ∧ c.Ended (s.recover e) := by
  unfold ParseState.recover ParseState.within
  by_cases hends : ParseState.endsStatement e = true
  · have hended : c.Ended s := h.elim Surroundings.Apart.ended And.right
    simp only [hends, if_true, List.append_assoc, true_and]
    exact ⟨hended.length, hended.ended⟩
  · have hapart : c.Apart s := h.resolve_right fun hend => hends hend.1
    simp only [if_neg hends, List.append_assoc, ParseState.mk.injEq, and_true]
    rcases hapart.apart with hbare | hsegment
    · rw [hbare.1, List.append_nil, List.append_nil]
      exact ⟨rfl, hapart.length, .inl hbare⟩
    · rcases hsegment.skip_append (s.openBlocks != 0) c.tokens with ⟨hskip, hrest⟩
      exact ⟨hskip, hapart.length, .inr hrest⟩

/-- A text, paired with the same text within surroundings. -/
def following (c : Surroundings) : Pairing where
  meets s t := c.Apart s ∧ t = s.within c
  ended s t := c.Ended s ∧ t = s.within c
  fails e s f t := f = e ∧ t = s.within c ∧
    (c.Apart s ∨ ParseState.endsStatement e = true ∧ c.Ended s)
  braced := c.Bare

/-- Whatever is done with the next token, the same is done within
    surroundings. -/
theorem following_kept (c : Surroundings) : c.following.Kept where
  peek := by
    rintro s _ ⟨hs, rfl⟩
    exact .inl hs.peek_within
  brace := by
    rintro s _ ⟨hs, rfl⟩ hk
    exact hs.bare_of_brace (.inl hk)
  next := by
    rintro s _ ⟨hs, rfl⟩ - hk -
    exact ⟨hs.next hk, hs.next_within⟩
  semicolon := by
    rintro s _ ⟨hs, rfl⟩ - -
    exact ⟨hs.next_ended, hs.next_within⟩
  still h := ⟨h.1.ended, h.2⟩
  expected := by
    rintro s _ k ⟨hs, rfl⟩ -
    exact ⟨by rw [hs.peek_within], rfl, .inl hs⟩
  unexpected := by
    rintro s _ ⟨hs, rfl⟩ -
    refine ⟨by rw [hs.peek_within], hs.next_within, ?_⟩
    by_cases hsemi : s.peek.kind = .semicolon
    · -- The one token that may be the last is refused here, and that ends its statement.
      exact .inr ⟨beq_iff_eq.mpr hsemi, hs.next_ended⟩
    · exact .inl (hs.next hsemi)
  outOfRange := by
    rintro s _ ⟨hs, rfl⟩ - hk
    exact ⟨rfl, hs.next_within, .inl (hs.next (by rw [hk]; decide))⟩
  recover := by
    rintro e s _ _ ⟨rfl, rfl, h⟩
    exact ⟨(recover_within h).2, (recover_within h).1⟩
  opened := by
    rintro s _ - ⟨hs, rfl⟩
    exact ⟨{ hs with }, rfl⟩
  closed := by
    rintro s _ - ⟨hs, rfl⟩
    exact ⟨{ hs with }, rfl⟩
  fails_closed := by
    rintro e s _ _ - ⟨rfl, rfl, h⟩
    exact ⟨rfl, rfl, h.imp (fun hs => { hs with }) (And.imp_right fun hs => { hs with })⟩
  within hbare h _ := ⟨h.1.apart hbare, h.2⟩
  ends := by
    rintro s _ hbare ⟨hs, rfl⟩ -
    have hapart := hs.apart hbare
    exact ⟨hapart.peek_within, hapart.next_ended.apart hbare, hapart.next_within⟩

end Surroundings

/-- To do the same within surroundings is to keep to the pairing. -/
theorem Outcome.follows_iff {α : Type} {c : Surroundings} {P : ParseState → Prop}
    {inner outer : Outcome α} : inner.Follows c P outer ↔
      Outcome.Pairs c.following (fun s t => P s ∧ t = s.within c) inner outer := by
  constructor
  · intro h
    cases inner with
    | ok a s =>
        rcases h with ⟨rfl, hs⟩
        exact .ok ⟨hs, rfl⟩
    | failed e s =>
        rcases h with ⟨rfl, hs⟩
        exact .failed ⟨rfl, rfl, hs⟩
    | exhausted => exact .exhausted
  · intro h
    cases h with
    | ok h => exact ⟨congrArg (Outcome.ok _) h.2, h.1⟩
    | failed h =>
        rcases h with ⟨rfl, rfl, hs⟩
        exact ⟨rfl, hs⟩
    | exhausted => trivial

namespace Parser

variable {α : Type} {c : Surroundings} {s : ParseState}

theorem followsApart_iff {p p' : Parser α} : FollowsApart c p p' ↔ Meeting c.following p p' := by
  constructor
  · rintro h s _ ⟨hs, rfl⟩
    exact Outcome.follows_iff.mp (h s hs)
  · intro h s hs
    exact Outcome.follows_iff.mpr (h s _ ⟨hs, rfl⟩)

/-- Expressions are the same within surroundings and with more fuel. -/
theorem follows_expression {n n' : Nat} (hn : n ≤ n') (p : Precedence) :
    FollowsApart c (expression n p) (expression n' p) :=
  followsApart_iff.mpr (pairs_expression c.following_kept hn p)

section

variable {self self' : Precedence → Parser Expr}
  (hself : ∀ p, FollowsApart c (self p) (self' p))

include hself

/-- A statement that may fail does the same, and what is to be read may have
    been read with it. -/
theorem follows_recovering (hs : c.Apart s) :
    Follows c c.Ended s (recovering (statement self)) (recovering (statement self')) :=
  Outcome.follows_iff.mpr (pairs_recovering c.following_kept
    (fun p => followsApart_iff.mp (hself p)) ⟨hs, rfl⟩)

/-- Programs are the same if nothing is behind them. -/
theorem follows_program (hbare : c.Bare) : ∀ {n n' : Nat}, n ≤ n' →
    FollowsApart c (program self n) (program self' n') := by
  refine fun hn => followsApart_iff.mpr ?_
  exact pairs_program c.following_kept (fun p => followsApart_iff.mp (hself p))
    (fun h => ⟨(h.1.apart hbare), h.2⟩) hbare hn

end

end Parser

end Monkey
