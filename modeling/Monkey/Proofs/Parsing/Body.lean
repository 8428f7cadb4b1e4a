import Monkey.Proofs.Parsing.Composition
import Monkey.Proofs.Parsing.Pairing

/-!
# The Body of a Function

What is parsed in a block, compared with what is parsed of the same tokens
alone.

The body of a function is meant to come to what its tokens come to when they
stand alone, and a statement in it that fails is meant to be left out. The
closing brace takes the place of the end of input: it ends an expression, it
ends the skipping after an error, and it is what an error says it found where
something is missing. In one way it differs. The end of input is never used
up, but a token that cannot start an expression is consumed and refused. If an
expression is missing at the very end of a body then the brace is consumed as
such a token. The block does not learn of that. It is still open, and takes in
whatever stands behind it.

So there are two outcomes, and which of them it is can be told from the errors
that the body has alone.

## Main definitions

* `Token.Unbraced`: Neither a brace nor the end of input.
* `ParseError.replace`: An error about another token.
* `Surroundings.Closing`: There is a closing brace behind, or nothing.
* `Surroundings.Unharmed`, `Surroundings.Breached`: The closing brace is still
  to come, or it was consumed by mistake.
* `Surroundings.enclosing`: Tokens alone, paired with the same ones in a block.

## Theorems

* `Surroundings.enclosing_kept`: All routines do the same in a block.
* `Parser.enclosed_program`: The statements of a block.
* `parseTokens_function`: A function and what is behind it.
-/

namespace Monkey

open Grammar

/-- A token that is neither a brace nor the end of input. -/
def Token.Unbraced (t : Token) : Prop :=
  t.kind ≠ .leftBrace ∧ t.kind ≠ .rightBrace ∧ t.kind ≠ .finish

instance (t : Token) : Decidable t.Unbraced :=
  inferInstanceAs (Decidable (_ ∧ _ ∧ _))

namespace ParseError

/-- An error that is about the second token if it was about the first one. -/
def replace (old new : Token) : ParseError → ParseError
  | expected kind found => expected kind (if found = old then new else found)
  | unexpected found => unexpected (if found = old then new else found)
  | outOfRange literal => outOfRange (if literal = old then new else literal)

theorem replace_self (old : Token) (e : ParseError) : e.replace old old = e := by
  have hsame : ∀ t : Token, (if t = old then old else t) = t := fun t => by
    split
    · rename_i h
      exact h.symm
    · rfl
  cases e <;> simp only [replace, hsame]

end ParseError

namespace Surroundings

/-- Behind the tokens that are read there is a closing brace, or nothing. -/
def Closing (c : Surroundings) : Prop :=
  c.Bare ∨ ∃ brace behind, c.tokens = brace :: behind ∧ brace.kind = .rightBrace

/-- What is found in place of the end of input. -/
def last (c : Surroundings) : Token :=
  c.tokens.headD (.finish c.outer)

/-- An error as it is within surroundings. -/
def report (c : Surroundings) (e : ParseError) : ParseError :=
  e.replace (.finish c.inner) c.last

/-- What is recorded where an expression is missing at the end. -/
def missing (c : Surroundings) : ParseError :=
  .unexpected (.finish c.inner)

/-- A state of a block, for a state of its tokens alone. -/
def enclose (c : Surroundings) (s : ParseState) : ParseState :=
  ⟨s.rest ++ c.tokens, c.outer, c.errors ++ s.errors.map c.report, s.openBlocks + 1⟩

/-- The closing brace has been consumed in place of an expression. -/
def Breached (c : Surroundings) (errors : List ParseError) : Prop :=
  c.tokens ≠ [] ∧ c.missing ∈ errors

/-- What is left to read has no braces, and the closing brace is behind it. -/
structure Unharmed (c : Surroundings) (s : ParseState) : Prop where
  length : s.length = c.inner
  unbraced : ∀ t ∈ s.rest, t.Unbraced
  whole : ¬c.Breached s.errors

variable {c : Surroundings} {s : ParseState}

theorem Closing.last_kind (hc : c.Closing) :
    c.tokens = [] ∧ c.last = .finish c.inner ∨ c.tokens ≠ [] ∧ c.last.kind = .rightBrace := by
  rcases hc with ⟨htokens, hlength⟩ | ⟨brace, behind, htokens, hk⟩
  · refine .inl ⟨htokens, ?_⟩
    rw [last, htokens, hlength]
    rfl
  · refine .inr ⟨?_, ?_⟩
    · rw [htokens]
      exact List.cons_ne_nil _ _
    · rw [last, htokens]
      exact hk

theorem Closing.endsStatement_report (hc : c.Closing) (e : ParseError) :
    ParseState.endsStatement (c.report e) = ParseState.endsStatement e := by
  cases e with
  | expected kind found => rfl
  | outOfRange literal => rfl
  | unexpected found =>
      by_cases hfound : found = .finish c.inner
      · -- Neither the end of input nor what is found in its place is a semicolon.
        have hlast : c.last.kind ≠ .semicolon := by
          rcases hc.last_kind with ⟨-, hlast⟩ | ⟨-, hlast⟩
          · exact fun hk => absurd ((congrArg Token.kind hlast).symm.trans hk) nofun
          · exact fun hk => absurd (hlast.symm.trans hk) nofun
        simp only [report, ParseError.replace, hfound, if_true, ParseState.endsStatement]
        rw [beq_false_of_ne hlast]
        rfl
      · simp only [report, ParseError.replace, if_neg hfound]

/-- The skipping ends at the closing brace at the latest. -/
theorem Closing.skip (hc : c.Closing) (inBlock : Bool) {ts : List Token}
    (hts : ∀ t ∈ ts, t.Unbraced) :
    ParseState.skip true (ts ++ c.tokens) = ParseState.skip inBlock ts ++ c.tokens := by
  induction ts with
  | nil =>
      rcases hc with ⟨htokens, -⟩ | ⟨brace, behind, htokens, hk⟩
      · rw [htokens]
        rfl
      · have hbrace : (brace.kind == .rightBrace) = true := beq_iff_eq.mpr hk
        simp only [htokens, List.nil_append, ParseState.skip, hbrace, Bool.and_self, if_true]
  | cons t ts ih =>
      rcases List.forall_mem_cons.mp hts with ⟨ht, hts⟩
      have hbrace : (t.kind == .rightBrace) = false := beq_false_of_ne ht.2.1
      simp only [List.cons_append, ParseState.skip, hbrace, Bool.and_false, Bool.false_eq_true,
        if_false]
      by_cases hsemi : (t.kind == .semicolon) = true
      · rw [if_pos hsemi, if_pos hsemi]
      · rw [if_neg hsemi, if_neg hsemi]
        exact ih hts

theorem enclose_next (c : Surroundings) (hk : s.peek.kind ≠ .finish) :
    (c.enclose s).next = c.enclose s.next := by
  have hrest := s.rest_eq_cons rfl hk
  simp only [enclose, ParseState.next]
  rw [hrest]
  rfl

namespace Unharmed

/-- A token is ahead, or the end of input alone and what takes its place in the
    block. -/
theorem cases (h : c.Unharmed s) :
    (s.peek = .finish c.inner ∧ s.rest = [] ∧ (c.enclose s).peek = c.last) ∨
      (s.peek.Unbraced ∧ s.rest = s.peek :: s.next.rest ∧ (c.enclose s).peek = s.peek) := by
  unfold enclose ParseState.peek ParseState.next
  cases hrest : s.rest with
  | nil =>
      rw [h.length]
      exact .inl ⟨rfl, rfl, rfl⟩
  | cons t ts =>
      have ht : t.Unbraced := h.unbraced t (hrest ▸ List.mem_cons_self)
      exact .inr ⟨ht, rfl, rfl⟩

/-- An error about the token ahead. -/
theorem replace_peek (h : c.Unharmed s) :
    (if s.peek = .finish c.inner then c.last else s.peek) = (c.enclose s).peek := by
  rcases h.cases with ⟨hpeek, -, hlast⟩ | ⟨ht, -, hsame⟩
  · rw [if_pos hpeek, hlast]
  · rw [if_neg fun heq => ht.2.2 (congrArg Token.kind heq), hsame]

theorem next (h : c.Unharmed s) : c.Unharmed s.next :=
  ⟨h.length, fun t ht => h.unbraced t (List.mem_of_mem_tail ht), h.whole⟩

/-- An error is recorded that does not come from the closing brace. -/
theorem recover (h : c.Unharmed s) {e : ParseError} (he : c.tokens = [] ∨ e ≠ c.missing) :
    c.Unharmed (s.recover e) := by
  refine ⟨h.length, fun t ht => ?_, fun hbreached => ?_⟩
  · exact h.unbraced t ((s.leads_recover e True).rest.mem ht)
  · rcases hbreached with ⟨htokens, hmem⟩
    rcases List.mem_append.mp hmem with hmem | hmem
    · exact h.whole ⟨htokens, hmem⟩
    · exact he.resolve_left htokens (List.mem_singleton.mp hmem).symm

theorem enclose_recover (h : c.Unharmed s) (hc : c.Closing) (e : ParseError) :
    (c.enclose s).recover (c.report e) = c.enclose (s.recover e) := by
  have hin : (s.openBlocks + 1 != 0) = true := bne_iff_ne.mpr (Nat.succ_ne_zero _)
  have hskip := hc.skip (s.openBlocks != 0) h.unbraced
  simp only [enclose, ParseState.recover, hc.endsStatement_report, hin, hskip, List.map_append,
    List.map_cons, List.map_nil, List.append_assoc]
  split <;> rfl

end Unharmed

/-- Tokens alone, paired with the same ones in a block. Once the closing brace
    has been consumed by mistake, the first run is at its end and the second
    one goes on behind the brace. -/
def enclosing (c : Surroundings) : Pairing where
  meets s t := c.Unharmed s ∧ t = c.enclose s
  ended s t := (c.Unharmed s ∧ t = c.enclose s) ∨ c.Breached s.errors ∧ s.rest = [] ∧
    t = { c.enclose s with rest := ParseState.skip true c.tokens.tail }
  fails e s f t := f = c.report e ∧
    ((c.Unharmed s ∧ (c.tokens = [] ∨ e ≠ c.missing) ∧ t = c.enclose s) ∨
      c.tokens ≠ [] ∧ e = c.missing ∧ s.rest = [] ∧
        t = { c.enclose s with rest := c.tokens.tail })
  braced := False

/-- Whatever is done with the next token, the same is done in a block. -/
theorem enclosing_kept (hc : c.Closing) : c.enclosing.Kept where
  peek := by
    rintro s _ ⟨hs, rfl⟩
    rcases hs.cases with ⟨hpeek, -, hlast⟩ | ⟨-, -, hsame⟩
    · rcases hc.last_kind with ⟨-, heq⟩ | ⟨-, hk⟩
      · exact .inl (hlast.trans (heq.trans hpeek.symm))
      · exact .inr ⟨congrArg Token.kind hpeek, (congrArg Token.kind hlast).trans hk, id⟩
    · exact .inl hsame
  brace := by
    rintro s _ ⟨hs, rfl⟩ hk
    rcases hs.cases with ⟨hpeek, -, -⟩ | ⟨ht, -, -⟩
    · exact absurd ((congrArg Token.kind hpeek).symm.trans hk) nofun
    · exact ht.1 hk
  next := by
    rintro s _ ⟨hs, rfl⟩ - - hk
    exact ⟨hs.next, c.enclose_next hk⟩
  semicolon := by
    rintro s _ ⟨hs, rfl⟩ - hk
    exact .inl ⟨hs.next, c.enclose_next (by rw [hk]; decide)⟩
  still := .inl
  expected := by
    rintro s _ k ⟨hs, rfl⟩ -
    refine ⟨?_, .inl ⟨hs, .inr nofun, rfl⟩⟩
    rw [report, ParseError.replace, hs.replace_peek]
  unexpected := by
    rintro s _ ⟨hs, rfl⟩ -
    refine ⟨by rw [report, ParseError.replace, hs.replace_peek], ?_⟩
    rcases hs.cases with ⟨hpeek, hrest, -⟩ | ⟨ht, -, -⟩
    · have hnext : s.next.rest = [] := by rw [ParseState.next, hrest]; rfl
      rcases hc.last_kind with ⟨htokens, -⟩ | ⟨htokens, -⟩
      · -- With nothing behind, the end of input is not used up in the block either.
        refine .inl ⟨hs.next, .inl htokens, ?_⟩
        simp only [enclose, ParseState.next, hrest, htokens, List.append_nil]
      · refine .inr ⟨htokens, by rw [hpeek]; rfl, hnext, ?_⟩
        simp only [enclose, ParseState.next, hrest, List.nil_append]
    · refine .inl ⟨hs.next, .inr fun heq => ?_, c.enclose_next ht.2.2⟩
      exact ht.2.2 (congrArg Token.kind (ParseError.unexpected.inj heq))
  outOfRange := by
    rintro s _ ⟨hs, rfl⟩ heq hk
    have hfinish : s.peek.kind ≠ .finish := by rw [hk]; decide
    refine ⟨?_, .inl ⟨hs.next, .inr nofun, c.enclose_next hfinish⟩⟩
    rw [report, ParseError.replace, hs.replace_peek, heq]
  recover := by
    rintro e s _ _ ⟨rfl, ⟨hs, he, rfl⟩ | ⟨htokens, rfl, hrest, rfl⟩⟩
    · exact .inl ⟨hs.recover he, hs.enclose_recover hc e⟩
    · have hends : ParseState.endsStatement c.missing = false := rfl
      have hends' : ParseState.endsStatement (c.report c.missing) = false :=
        (hc.endsStatement_report _).trans hends
      have hin : (s.openBlocks + 1 != 0) = true := bne_iff_ne.mpr (Nat.succ_ne_zero _)
      refine .inr ⟨⟨htokens, List.mem_append_right _ List.mem_cons_self⟩, ?_, ?_⟩
      · rw [ParseState.recover, hrest]
        rfl
      · simp only [enclose, ParseState.recover, hends, hends', hin, List.map_append,
          List.map_cons, List.map_nil, List.append_assoc, Bool.false_eq_true, if_false]
  opened h := h.elim
  closed h := h.elim
  fails_closed h := h.elim
  within h := h.elim
  ends h := h.elim

end Surroundings

namespace Parser

variable {self : Precedence → Parser Expr} {n : Nat} {c : Surroundings}

/-- A parser that looks at the next token does what it does for that token. -/
theorem peek_bind_eq {α : Type} {f : Token → Parser α} {p : Parser α} {s : ParseState}
    (h : f s.peek = p) : (peek >>= f) s = p s :=
  congrFun h s

/-- Two parsers one after the other have succeeded, so each of them has. -/
theorem bind_eq_ok {α β : Type} {p : Parser α} {f : α → Parser β} {b : β} {s u : ParseState}
    (h : (p >>= f) s = .ok b u) : ∃ a s', p s = .ok a s' ∧ f a s' = .ok b u := by
  simp only [Bind.bind] at h
  cases hp : p s with
  | ok a s' =>
      rw [hp] at h
      exact ⟨a, s', rfl, h⟩
  | failed e s' =>
      rw [hp] at h
      cases h
  | exhausted =>
      rw [hp] at h
      cases h

/-- A program is empty, or it starts with what its first statement comes to. -/
theorem program_inv {s s' : ParseState} {ss : Block} (h : program self (n + 1) s = .ok ss s') :
    s.peek.kind = .finish ∧ ss = [] ∧ s' = s ∨
      s.peek.kind ≠ .finish ∧ ∃ st s₁ later, recovering (statement self) s = .ok st s₁ ∧
        program self n s₁ = .ok later s' ∧ ss = st.toList ++ later := by
  change (if s.peek.kind = .finish then (pure [] : Parser Block) else
    recovering (statement self) >>= fun st => program self n >>= fun ss =>
      pure (st.toList ++ ss)) s = _ at h
  by_cases hk : s.peek.kind = .finish
  · rw [if_pos hk] at h
    cases h
    exact .inl ⟨hk, rfl, rfl⟩
  · rw [if_neg hk] at h
    rcases bind_eq_ok h with ⟨st, s₁, hfirst, h⟩
    rcases bind_eq_ok h with ⟨later, s₂, hlater, h⟩
    cases h
    exact .inr ⟨hk, st, s₁, later, hfirst, hlater, rfl⟩

/-- Nothing is found where nothing is left. -/
theorem program_closed {s : ParseState} (hn : 0 < n) (hrest : s.rest = []) :
    program self n s = .ok [] s := by
  rcases exists_fuel hn with ⟨n, rfl⟩
  have hpeek : s.peek.kind = .finish := by rw [ParseState.peek_kind, hrest]; rfl
  change (if s.peek.kind = .finish then (pure [] : Parser Block) else _ >>= _) s = _
  rw [if_pos hpeek]
  rfl

/-- A block starts with what its first statement comes to. -/
theorem statementsUpToBrace_cons {s s₁ s₂ : ParseState} {st : Option Stmt} {ss : Block}
    (hk : s.peek.kind ≠ .rightBrace ∧ s.peek.kind ≠ .finish)
    (hfirst : recovering (statement self) s = .ok st s₁)
    (hlater : statementsUpToBrace self n s₁ = .ok ss s₂) :
    statementsUpToBrace self (n + 1) s = .ok (st.toList ++ ss) s₂ := by
  have hloop : statementsUpToBrace self (n + 1) s = (recovering (statement self) >>= fun st =>
      statementsUpToBrace self n >>= fun ss => pure (st.toList ++ ss) : Parser Block) s := by
    refine peek_bind_eq ?_
    generalize s.peek.kind = kind at hk
    split
    · exact absurd rfl hk.1
    · exact absurd rfl hk.2
    · rfl
  rw [hloop]
  simp only [Bind.bind, hfirst, hlater]
  rfl

/-- A block ends with its closing brace, or with the end of input. -/
theorem statementsUpToBrace_closed {s : ParseState} (hn : 0 < n)
    (hk : s.peek.kind = .rightBrace ∨ s.rest = []) :
    statementsUpToBrace self n s = .ok [] s.next := by
  rcases exists_fuel hn with ⟨n, rfl⟩
  simp only [statementsUpToBrace, Bind.bind, peek]
  rcases hk with hk | hrest
  · simp only [hk, take]
    rfl
  · have hpeek : s.peek.kind = .finish := by rw [ParseState.peek_kind, hrest]; rfl
    have hnext : s.next = s := by
      rcases s with ⟨rest, length, errors, openBlocks⟩
      cases hrest
      rfl
    simp only [hpeek, hnext]
    rfl

/-- The statements of a block are those of its tokens alone, and then there is
    nothing left of the tokens. What else is in the block is what it goes on to
    read. -/
theorem enclosed_program (hc : c.Closing) {room room' : Nat} (hroom : room ≤ room') :
    ∀ n n' s t ss s', program (expression room) n s = .ok ss s' → c.enclosing.ended s t →
      t.rest.length < room' → t.rest.length < n' →
        ∃ t' k, c.enclosing.ended s' t' ∧ s'.peek.kind = .finish ∧ t'.rest.length < k ∧
          ∀ later u, statementsUpToBrace (expression room') k t' = .ok later u →
            statementsUpToBrace (expression room') n' t = .ok (ss ++ later) u := by
  intro n
  induction n with
  | zero => exact fun _ _ _ _ _ h => nomatch h
  | succ n ih =>
      intro n' s t ss s' hrun hended hroom' hn'
      rcases program_inv hrun with ⟨hk, rfl, rfl⟩ | ⟨hk, st, s₁, later, hfirst, hlater, rfl⟩
      · exact ⟨t, n', hended, hk, hn', fun _ _ h => h⟩
      · -- Where something is left of the tokens, the brace has not been consumed.
        have hmeets : c.enclosing.meets s t := hended.resolve_right fun hbreached =>
          hk (by rw [ParseState.peek_kind, hbreached.2.1]; rfl)
        have hkind : t.peek.kind ≠ .rightBrace ∧ t.peek.kind ≠ .finish := by
          rcases hmeets.1.cases with ⟨hpeek, -, -⟩ | ⟨ht, -, hsame⟩
          · exact absurd (congrArg Token.kind hpeek) hk
          · rw [hmeets.2, hsame]
            exact ht.2
        rcases exists_fuel hn' with ⟨n', rfl⟩
        have hkept := Surroundings.enclosing_kept hc
        have hpairs := pairs_recovering hkept (pairs_expression hkept hroom) hmeets
        have hreads := reads_recovering (reads_expression room') t hroom' hkind.2
        unfold Pairs at hpairs
        rw [hfirst] at hpairs
        generalize hsecond : recovering (statement (expression room')) t = second
          at hpairs hreads
        cases hpairs with
        | @ok _ _ t₁ hended₁ =>
            have hless : t₁.rest.length < t.rest.length := hreads.2
            rcases ih n' s₁ t₁ later s' hlater hended₁ (by omega) (by omega) with
              ⟨t', k, hended', hfinish, hfuel, hgoes⟩
            refine ⟨t', k, hended', hfinish, hfuel, fun more u hmore => ?_⟩
            rw [List.append_assoc]
            exact statementsUpToBrace_cons hkind hsecond (hgoes more u hmore)

section

variable {tokens : List Token} {room : Nat}

/-- A run over some tokens alone, and how the block starts that they are in. -/
theorem enclosed_parseTokens (hc : c.Closing) (htokens : ∀ t ∈ tokens, t.Unbraced)
    (hroom : (tokens ++ c.tokens).length < room) (hn : (tokens ++ c.tokens).length < n) :
    ∃ s t k, c.enclosing.ended s t ∧ s.rest = [] ∧ s.openBlocks = 0 ∧
      s.errors = (parseTokens tokens c.inner).errors ∧ t.rest.length < k ∧
      ∀ later u, statementsUpToBrace (expression room) k t = .ok later u →
        statementsUpToBrace (expression room) n ⟨tokens ++ c.tokens, c.outer, c.errors, 1⟩
          = .ok ((parseTokens tokens c.inner).program ++ later) u := by
  rcases exists_program tokens c.inner with ⟨s, hrun, herrors, hleads, hend⟩
  have hstart : c.Unharmed (.start tokens c.inner) :=
    ⟨rfl, htokens, fun hbreached => absurd hbreached.2 List.not_mem_nil⟩
  have hfuel : tokens.length + 1 ≤ room := by
    rw [List.length_append] at hroom
    omega
  rcases enclosed_program hc hfuel _ n _ _ _ s hrun (.inl ⟨hstart, rfl⟩) hroom hn with
    ⟨t, k, hended, -, hk, hgoes⟩
  have hrest : s.rest = [] :=
    eq_nil_of_ahead (fun t ht => (htokens t (hleads.rest.mem ht)).2.2) hend
  refine ⟨s, t, k, hended, hrest, hleads.openBlocks, herrors, hk, fun later u hlater => ?_⟩
  have hsame : c.enclose (.start tokens c.inner) = ⟨tokens ++ c.tokens, c.outer, c.errors, 1⟩ := by
    simp only [Surroundings.enclose, ParseState.start, List.map_nil, List.append_nil]
  rw [← hsame]
  exact hgoes later u hlater

/-- A block whose brace is not consumed by mistake comes to what its tokens
    come to alone. -/
theorem block_alone (hc : c.Closing) (htokens : ∀ t ∈ tokens, t.Unbraced)
    (hwhole : ¬c.Breached (parseTokens tokens c.inner).errors)
    (hroom : (tokens ++ c.tokens).length < room) (hn : (tokens ++ c.tokens).length < n) :
    statementsUpToBrace (expression room) n ⟨tokens ++ c.tokens, c.outer, c.errors, 1⟩
      = .ok (parseTokens tokens c.inner).program ⟨c.tokens.tail, c.outer,
          c.errors ++ (parseTokens tokens c.inner).errors.map c.report, 1⟩ := by
  rcases enclosed_parseTokens hc htokens hroom hn with
    ⟨s, t, k, hended, hrest, hopen, herrors, hk, hgoes⟩
  rw [← herrors] at hwhole
  rcases hended.resolve_right fun hbreached => hwhole hbreached.1 with ⟨-, rfl⟩
  have hclose : (c.enclose s).peek.kind = .rightBrace ∨ (c.enclose s).rest = [] := by
    rw [ParseState.peek_kind, Surroundings.enclose, hrest, List.nil_append]
    rcases hc with ⟨hnothing, -⟩ | ⟨brace, behind, hbrace, hkind⟩
    · exact .inr hnothing
    · rw [hbrace]
      exact .inl hkind
  have hwhole := hgoes _ _ (statementsUpToBrace_closed (Nat.zero_lt_of_lt hk) hclose)
  rw [List.append_nil] at hwhole
  rw [hwhole, ← herrors]
  simp only [Surroundings.enclose, ParseState.next, hrest, hopen, List.nil_append]

/-- A block that is not closed comes to what its tokens come to alone. -/
theorem block_unclosed (htokens : ∀ t ∈ tokens, t.Unbraced) (hroom : tokens.length < room)
    (hn : tokens.length < n) (length : Nat) (errors : List ParseError) :
    statementsUpToBrace (expression room) n ⟨tokens, length, errors, 1⟩
      = .ok (parseTokens tokens length).program
          ⟨[], length, errors ++ (parseTokens tokens length).errors, 1⟩ := by
  let c : Surroundings := ⟨errors, [], length, length⟩
  have hreport : c.report = id := funext (ParseError.replace_self _)
  have hlength : (tokens ++ c.tokens).length = tokens.length := by rw [List.append_nil]
  have hblock := block_alone (c := c) (.inl ⟨rfl, rfl⟩) htokens (fun hbreached => hbreached.1 rfl)
    (hlength ▸ hroom) (hlength ▸ hn)
  rw [hreport, List.map_id, List.append_nil] at hblock
  exact hblock

/-- A block whose brace is consumed by mistake goes on behind it. -/
theorem block_breached (hc : c.Closing) (htokens : ∀ t ∈ tokens, t.Unbraced)
    (hbreached : c.Breached (parseTokens tokens c.inner).errors)
    (hroom : (tokens ++ c.tokens).length < room) (hn : (tokens ++ c.tokens).length < n) :
    ∃ k, (ParseState.skip true c.tokens.tail).length < k ∧
      ∀ later u, statementsUpToBrace (expression room) k ⟨ParseState.skip true c.tokens.tail,
          c.outer, c.errors ++ (parseTokens tokens c.inner).errors.map c.report, 1⟩
            = .ok later u →
        statementsUpToBrace (expression room) n ⟨tokens ++ c.tokens, c.outer, c.errors, 1⟩
          = .ok ((parseTokens tokens c.inner).program ++ later) u := by
  rcases enclosed_parseTokens hc htokens hroom hn with
    ⟨s, t, k, hended, -, hopen, herrors, hk, hgoes⟩
  rw [← herrors] at hbreached ⊢
  rcases hended.resolve_left fun hunharmed => hunharmed.1.whole hbreached with ⟨-, -, rfl⟩
  refine ⟨k, hk, fun later u hlater => hgoes later u ?_⟩
  simp only [Surroundings.enclose, hopen]
  exact hlater

end

/-- A statement takes the semicolon behind it along. -/
theorem recovering_ended {st : Stmt} {s u : ParseState} (h : bareStatement self s = .ok st u)
    (hk : u.peek.kind = .semicolon) :
    recovering (statement self) s = .ok (some st) u.next := by
  simp only [recovering, statement, bind, h, accept, if_pos hk]
  rfl

/-- A statement with no semicolon behind it. -/
theorem recovering_adjacent {st : Stmt} {s u : ParseState} (h : bareStatement self s = .ok st u)
    (hk : u.peek.kind ≠ .semicolon) :
    recovering (statement self) s = .ok (some st) u := by
  simp only [recovering, statement, bind, h, accept, if_neg hk]
  rfl

end Parser

section

variable {word left right opening : Token} (hword : word.kind = .fnWord)
  (hleft : left.kind = .leftParen) (hright : right.kind = .rightParen)
  (hopening : opening.kind = .leftBrace)

include hword hleft hright hopening

namespace Parser

/-- A function without parameters is a statement, if no operator is behind
    it. -/
theorem bareStatement_function {n : Nat} (hn : 0 < n) {inside : List Token} {body : Block}
    {s u : ParseState}
    (hblock : statementsUpToBrace (expression n) n (s.at inside).opened = .ok body u)
    (hstop : Precedence.ofKind (ahead u.rest) = .lowest) :
    bareStatement (expression (n + 1)) (s.at (word :: left :: right :: opening :: inside))
      = .ok (.expr (.fn [] body)) u.closed := by
  rcases exists_fuel hn with ⟨m, rfl⟩
  have hinner : block (expression (m + 1)) (m + 1) (s.at inside) = .ok body u.closed := by
    unfold block inBlock
    simp only [ParseState.opened] at hblock
    rw [hblock]
    rfl
  have hparams : Finds (listUpTo .rightParen parameter (m + 1)) [] (right :: opening :: inside)
      (opening :: inside) := (finds_accept hright).bind finds_pure
  have hliteral : function (expression (m + 1)) (m + 1) (s.at (left :: right :: opening :: inside))
      = .ok (.fn [] body) u.closed := by
    refine ((finds_expect hleft).bind_eq _ s).trans ?_
    refine (hparams.bind_eq _ s).trans ?_
    refine ((finds_expect hopening).bind_eq _ s).trans ?_
    simp only [bind, hinner]
    rfl
  have hoperand : operand (expression (m + 1)) (m + 1)
      (s.at (word :: left :: right :: opening :: inside)) = .ok (.fn [] body) u.closed := by
    refine (finds_take.bind_eq _ s).trans ?_
    rw [hword]
    exact hliteral
  have hoperators : operators (expression (m + 1)) (m + 1) .lowest (m + 1) (.fn [] body) u.closed
      = .ok (.fn [] body) u.closed := by
    change (if Precedence.lowest < Precedence.ofKind u.closed.peek.kind then
      take >>= fun t => _ >>= _ else pure (.fn [] body) : Parser Expr) u.closed = _
    rw [if_neg]
    · rfl
    · rw [ParseState.peek_kind, ParseState.closed, hstop]
      exact Nat.lt_irrefl _
  have hvalue : expression (m + 2) .lowest (s.at (word :: left :: right :: opening :: inside))
      = .ok (.fn [] body) u.closed := by
    rw [expression]
    simp only [bind, hoperand, hoperators]
  have hbare : bareStatement (expression (m + 2))
      (s.at (word :: left :: right :: opening :: inside))
        = (expression (m + 2) .lowest >>= fun value => pure (.expr value) : Parser Stmt)
          (s.at (word :: left :: right :: opening :: inside)) := by
    refine peek_bind_eq ?_
    rw [show (s.at (word :: left :: right :: opening :: inside)).peek.kind = .fnWord from hword]
  rw [hbare]
  simp only [bind, hvalue]
  rfl

end Parser

variable {closing semi : Token} (hclosing : closing.kind = .rightBrace)
  (hsemi : semi.kind = .semicolon) {body : List Token} (hbody : ∀ t ∈ body, t.Unbraced)
  {inner : Nat}

include hclosing hsemi hbody

/-- A function whose body does not end with a missing expression is parsed, with
    the semicolon behind it, as its body alone. -/
theorem passesOver_function
    (hwhole : ParseError.unexpected (.finish inner) ∉ (parseTokens body inner).errors) :
    Parser.PassesOver (word :: left :: right :: opening :: (body ++ [closing, semi]))
      [.expr (.fn [] (parseTokens body inner).program)]
      ((parseTokens body inner).errors.map (ParseError.replace (.finish inner) closing)) := by
  have hfirst : ∀ (behind : List Token) (length : Nat) (before : List ParseError) (n : Nat),
      (word :: left :: right :: opening :: (body ++ [closing, semi]) ++ behind).length < n →
        Parser.recovering (Parser.statement (Parser.expression n))
            ⟨word :: left :: right :: opening :: (body ++ [closing, semi]) ++ behind, length,
              before, 0⟩
          = .ok (some (.expr (.fn [] (parseTokens body inner).program)))
            ⟨[] ++ behind, length, before ++ (parseTokens body inner).errors.map
              (ParseError.replace (.finish inner) closing), 0⟩ := by
    intro behind length before n hn
    have htokens : word :: left :: right :: opening :: (body ++ [closing, semi]) ++ behind
        = word :: left :: right :: opening :: (body ++ closing :: semi :: behind) := by
      simp only [List.cons_append, List.append_assoc, List.nil_append]
    rw [htokens] at hn ⊢
    rw [List.length_cons, List.length_cons, List.length_cons, List.length_cons] at hn
    rcases Parser.exists_fuel hn with ⟨n, rfl⟩
    have hlt : (body ++ closing :: semi :: behind).length < n := by omega
    have hblock := Parser.block_alone (c := ⟨before, closing :: semi :: behind, inner, length⟩)
      (.inr ⟨closing, semi :: behind, rfl, hclosing⟩) hbody (fun hbreached => hwhole hbreached.2)
      hlt hlt
    have hstatement := Parser.bareStatement_function hword hleft hright hopening
      (Nat.zero_lt_of_lt hlt) (s := ⟨[], length, before, 0⟩) hblock
      (by rw [List.tail_cons, ahead_cons, hsemi]; rfl)
    exact Parser.recovering_ended hstatement hsemi
  have hpasses : Parser.PassesOver (word :: left :: right :: opening :: (body ++ [closing, semi]))
      ((some (.expr (.fn [] (parseTokens body inner).program)) : Option Stmt).toList ++ [])
      ((parseTokens body inner).errors.map (ParseError.replace (.finish inner) closing) ++ []) :=
    Parser.passesOver_nil.statement (by rw [ahead_cons, hword]; decide)
      (by rw [List.length_nil, List.length_cons]; exact Nat.zero_lt_succ _) hfirst
  rw [List.append_nil, List.append_nil] at hpasses
  exact hpasses

/-- A function whose body ends with a missing expression takes in what is
    behind it. -/
theorem parseTokens_missing
    (hmissing : ParseError.unexpected (.finish inner) ∈ (parseTokens body inner).errors)
    {behind : List Token} (hbehind : ∀ t ∈ behind, t.Unbraced) (length : Nat) :
    parseTokens (word :: left :: right :: opening :: (body ++ closing :: semi :: behind)) length =
      ⟨[.expr (.fn [] ((parseTokens body inner).program ++ (parseTokens behind length).program))],
        (parseTokens body inner).errors.map (ParseError.replace (.finish inner) closing)
          ++ (parseTokens behind length).errors⟩ := by
  -- The closing brace is gone, and the skipping ends at the semicolon behind it.
  have hskip : ParseState.skip true (semi :: behind) = behind := by
    have hbrace : (semi.kind == .rightBrace) = false := by rw [hsemi]; rfl
    have hsemi' : (semi.kind == .semicolon) = true := beq_iff_eq.mpr hsemi
    simp only [ParseState.skip, hbrace, hsemi', Bool.and_false, Bool.false_eq_true, if_false,
      if_true]
  let whole := body ++ closing :: semi :: behind
  let reported := (parseTokens body inner).errors.map (ParseError.replace (.finish inner) closing)
  have hlt : whole.length < whole.length + 4 := by omega
  have hshort : behind.length < whole.length + 4 := by
    simp only [whole, List.length_append, List.length_cons]
    omega
  rcases Parser.block_breached (c := ⟨[], closing :: semi :: behind, inner, length⟩)
    (.inr ⟨closing, semi :: behind, rfl, hclosing⟩) hbody ⟨List.cons_ne_nil _ _, hmissing⟩
    hlt hlt with ⟨k, hk, hgoes⟩
  rw [List.tail_cons, hskip] at hk hgoes
  have hlater := Parser.block_unclosed hbehind hshort hk length reported
  have hstatement := Parser.bareStatement_function hword hleft hright hopening
    (Nat.zero_lt_of_lt hlt) (s := ⟨[], length, [], 0⟩) (hgoes _ _ hlater) rfl
  have hfirst := Parser.recovering_adjacent hstatement
    (show Kind.finish ≠ Kind.semicolon by decide)
  have hfinish : (ParseState.start (word :: left :: right :: opening :: whole) length).peek.kind
      ≠ .finish := by
    change word.kind ≠ .finish
    rw [hword]
    decide
  have hrun := Parser.program_cons hfinish hfirst
    (Parser.program_closed (n := whole.length + 4) (Nat.zero_lt_of_lt hlt) rfl)
  change Parser.program _ _ (.start (word :: left :: right :: opening :: whole) length) = _ at hrun
  rw [parseTokens]
  simp only [List.length_cons]
  rw [hrun]
  rfl

/-- A function without parameters, a semicolon and other tokens are parsed as
    the body alone, which becomes the body of the function, and then what is
    behind. Only if an expression is missing at the very end of the body does
    the function take in what is behind. The errors are the same either way:
    those of the body, where the closing brace takes the place of the end of
    input, and then the others. -/
theorem parseTokens_function (inner : Nat) (behind : List Token) (length : Nat) :
    (.unexpected (.finish inner) ∉ (parseTokens body inner).errors →
      parseTokens (word :: left :: right :: opening :: (body ++ closing :: semi :: behind)) length =
        ⟨.expr (.fn [] (parseTokens body inner).program) :: (parseTokens behind length).program,
          (parseTokens body inner).errors.map (ParseError.replace (.finish inner) closing)
            ++ (parseTokens behind length).errors⟩) ∧
    (.unexpected (.finish inner) ∈ (parseTokens body inner).errors →
      (∀ t ∈ behind, t.Unbraced) →
      parseTokens (word :: left :: right :: opening :: (body ++ closing :: semi :: behind)) length =
        ⟨[.expr (.fn [] ((parseTokens body inner).program ++ (parseTokens behind length).program))],
          (parseTokens body inner).errors.map (ParseError.replace (.finish inner) closing)
            ++ (parseTokens behind length).errors⟩) := by
  refine ⟨fun hwhole => ?_, fun hmissing hbehind => ?_⟩
  · have hpasses := passesOver_function hword hleft hright hopening hclosing hsemi hbody hwhole
    have happend := parseTokens_append hpasses behind length
    rw [List.cons_append, List.cons_append, List.cons_append, List.cons_append,
      List.append_assoc] at happend
    exact happend
  · exact parseTokens_missing hword hleft hright hopening hclosing hsemi hbody hmissing hbehind
      length

end

/-- The word of the function in `fn ( ) { 1 + } ; 2`. -/
def wordToken : Token :=
  ⟨.fnWord, "fn", ⟨0, 2⟩⟩

/-- Its opening parenthesis. -/
def leftToken : Token :=
  ⟨.leftParen, "(", ⟨3, 4⟩⟩

/-- Its closing parenthesis. -/
def rightToken : Token :=
  ⟨.rightParen, ")", ⟨5, 6⟩⟩

/-- The brace that opens its body. -/
def openingToken : Token :=
  ⟨.leftBrace, "\x7b", ⟨7, 8⟩⟩

/-- The number that its body starts with. -/
def numberToken : Token :=
  ⟨.integer, "1", ⟨9, 10⟩⟩

/-- The sign behind it, without a second operand. -/
def signToken : Token :=
  ⟨.plus, "+", ⟨11, 12⟩⟩

/-- The brace that should close its body. -/
def closingToken : Token :=
  ⟨.rightBrace, "\x7d", ⟨13, 14⟩⟩

/-- The semicolon behind the function. -/
def semicolonToken : Token :=
  ⟨.semicolon, ";", ⟨15, 16⟩⟩

/-- The number behind the function. -/
def laterToken : Token :=
  ⟨.integer, "2", ⟨17, 18⟩⟩

/-- Without the sign the number behind the function is a statement of its own,
    and with the sign it is in the function. -/
theorem parseTokens_function_sum :
    parseTokens (wordToken :: leftToken :: rightToken :: openingToken ::
        ([numberToken] ++ closingToken :: semicolonToken :: [laterToken])) 18
      = ⟨[.expr (.fn [] [.expr (.int 1)]), .expr (.int 2)], []⟩ ∧
    parseTokens (wordToken :: leftToken :: rightToken :: openingToken ::
        ([numberToken, signToken] ++ closingToken :: semicolonToken :: [laterToken])) 18
      = ⟨[.expr (.fn [] [.expr (.int 2)])], [.unexpected closingToken]⟩ := by
  have hword : wordToken.kind = .fnWord := rfl
  have hleft : leftToken.kind = .leftParen := rfl
  have hright : rightToken.kind = .rightParen := rfl
  have hopening : openingToken.kind = .leftBrace := rfl
  have hclosing : closingToken.kind = .rightBrace := rfl
  have hsemi : semicolonToken.kind = .semicolon := rfl
  have hwhole := parseTokens_function hword hleft hright hopening hclosing hsemi
    (show ∀ t ∈ [numberToken], t.Unbraced by decide) 12 [laterToken] 18
  have hmissing := parseTokens_function hword hleft hright hopening hclosing hsemi
    (show ∀ t ∈ [numberToken, signToken], t.Unbraced by decide) 12 [laterToken] 18
  exact ⟨hwhole.1 (by decide +kernel), hmissing.2 (by decide +kernel) (by decide)⟩

end Monkey
