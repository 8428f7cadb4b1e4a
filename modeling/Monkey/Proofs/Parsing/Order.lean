import Monkey.Proofs.Lexing.Cover
import Monkey.Proofs.Parsing.Pairing
import Monkey.Proofs.Parsing.Soundness

/-!
# Errors in Order

Errors are recorded in the order in which their tokens stand in the text.

An error is about the token that is ahead when a routine fails, or about the
one that it has just consumed. All tokens of errors from before stand in front
of the token that is ahead, and that is what carries the argument: a new error
comes behind all others. It has to be true again once the error is recorded.
If its token was consumed then it is, and so it is if the skipping consumes
something. But the skipping may end at once, and then the token of the error is
still ahead. Within a block that happens at a closing brace, and the block
consumes that brace next. At the end of the text it is the end of input, which
is never consumed, so several errors may be about it, and about nothing else.

That is a pairing of a run with itself: the states that belong together are
equal, and something holds of them.

## Main definitions

* `ParseState.upcoming`: The tokens ahead, with the end of input.
* `Token.Before`: The order of the tokens that errors are about.
* `ParseError.Fits`: What an error says about its token.
* `ParseState.Orderly`: The errors are in order, and the tokens ahead come
  behind them.
* `ParseState.Stopped`, `ParseState.Settled`: An error has arisen, and it has
  been recovered from.
* `ordering`: A run paired with itself.

## Theorems

* `ParseState.Orderly.record`: One more error.
* `ParseState.Stopped.recover`: Recovery from an error.
* `ordering_kept`: Every routine keeps errors in order.
* `parse_errors_ordered`: The errors in a text.
-/

namespace Monkey

/-- One token stands in front of another one, or both are the end of input. -/
def Token.Before (stop : Nat) (t u : Token) : Prop :=
  t.span.start < u.span.start ∨ t = .finish stop ∧ u = .finish stop

theorem Token.Before.trans {stop : Nat} {t u v : Token} (h : t.Before stop u)
    (h' : u.Before stop v) : t.Before stop v := by
  rcases h with hlt | ⟨rfl, rfl⟩
  · rcases h' with hlt' | ⟨rfl, rfl⟩
    · exact .inl (Nat.lt_trans hlt hlt')
    · exact .inl hlt
  · exact h'

theorem Token.Before.le {stop : Nat} {t u : Token} (h : t.Before stop u) :
    t.span.start ≤ u.span.start := by
  rcases h with hlt | ⟨rfl, rfl⟩
  · exact Nat.le_of_lt hlt
  · exact Nat.le_refl _

/-- What an error says of its token, apart from where it stands. -/
def ParseError.Fits : ParseError → Prop
  | expected kind found => found.kind ≠ kind
  | unexpected found => found.kind ∉ Grammar.starting
  | outOfRange literal => literal.kind = .integer

/-- Tokens and the end of input behind them, each of which starts behind those
    in front of it. -/
def Ascending (tokens : List Token) (stop : Nat) : Prop :=
  (tokens ++ [Token.finish stop]).Pairwise fun t u => t.span.start < u.span.start

namespace ParseState

/-- The tokens ahead, with the end of input behind them. -/
def upcoming (s : ParseState) : List Token :=
  s.rest ++ [Token.finish s.length]

theorem peek_mem_upcoming (s : ParseState) : s.peek ∈ s.upcoming := by
  unfold peek upcoming
  cases s.rest with
  | nil => exact List.mem_singleton_self _
  | cons t ts => exact List.mem_cons_self

/-- The errors of a state are in order and about tokens of a text, and the
    token ahead comes behind the tokens that they are about. -/
structure Orderly (tokens : List Token) (stop : Nat) (s : ParseState) : Prop where
  rest : s.rest <:+ tokens
  length : s.length = stop
  real : ∀ e ∈ s.errors, e.token ∈ tokens ++ [Token.finish stop] ∧ e.Fits
  ordered : s.errors.Pairwise fun e f => e.token.Before stop f.token
  ahead : ∀ e ∈ s.errors, e.token.Before stop s.peek

namespace Orderly

variable {tokens : List Token} {stop : Nat} {s : ParseState}

theorem start (tokens : List Token) (stop : Nat) :
    (ParseState.start tokens stop).Orderly tokens stop where
  rest := List.suffix_rfl
  length := rfl
  real _ he := absurd he List.not_mem_nil
  ordered := .nil
  ahead _ he := absurd he List.not_mem_nil

theorem peek_mem (h : s.Orderly tokens stop) : s.peek ∈ tokens ++ [Token.finish stop] := by
  have hmem := s.peek_mem_upcoming
  rw [upcoming, h.length] at hmem
  rcases List.mem_append.mp hmem with hmem | hmem
  · exact List.mem_append_left _ (h.rest.mem hmem)
  · exact List.mem_append_right _ hmem

/-- Where tokens are passed over, what is ahead then comes behind what was
    ahead before. -/
theorem before_peek (h : s.Orderly tokens stop) (htokens : Ascending tokens stop)
    {t : ParseState} (hlength : t.length = s.length) (hrest : t.rest <:+ s.rest)
    (hne : t.rest ≠ s.rest) : s.peek.Before stop t.peek := by
  rcases hrest with ⟨front, hfront⟩
  rcases h.rest with ⟨passed, hpassed⟩
  cases front with
  | nil => exact absurd hfront hne
  | cons first front =>
      have hpeek : s.peek = first := by
        rw [peek, ← hfront]
        rfl
      -- The token ahead before is the first of those that were passed over.
      unfold Ascending at htokens
      rw [← hpassed, ← hfront, List.append_assoc, List.append_assoc] at htokens
      have hpast := (List.pairwise_append.mp htokens).2.1
      have hlater := (List.pairwise_cons.mp hpast).1
      have hmem := t.peek_mem_upcoming
      rw [upcoming, hlength, h.length] at hmem
      rw [hpeek]
      exact .inl (hlater _ (List.mem_append_right _ hmem))

/-- The next token comes behind the one ahead, unless that is the end of
    input. -/
theorem before_next (h : s.Orderly tokens stop) (htokens : Ascending tokens stop) :
    s.peek.Before stop s.next.peek := by
  cases hrest : s.rest with
  | nil =>
      have hpeek : s.peek = .finish stop := by rw [peek, hrest, ← h.length]; rfl
      have hnext : s.next.peek = .finish stop := by
        rw [peek, ParseState.next, hrest, ← h.length]
        rfl
      exact .inr ⟨hpeek, hnext⟩
  | cons t ts =>
      refine h.before_peek htokens rfl (List.tail_suffix s.rest) fun heq => ?_
      have hlen := congrArg List.length heq
      simp only [ParseState.next, hrest, List.tail_cons, List.length_cons] at hlen
      omega

/-- Errors stay in order where tokens are passed over, and however many blocks
    are open. -/
theorem pass (h : s.Orderly tokens stop) {t : ParseState} (hlength : t.length = s.length)
    (herrors : t.errors = s.errors) (hrest : t.rest <:+ s.rest)
    (hpeek : t.rest = s.rest ∨ s.peek.Before stop t.peek) : t.Orderly tokens stop where
  rest := hrest.trans h.rest
  length := hlength.trans h.length
  real := herrors ▸ h.real
  ordered := herrors ▸ h.ordered
  ahead e he := by
    rw [herrors] at he
    rcases hpeek with heq | hbefore
    · rw [show t.peek = s.peek by rw [peek, peek, heq, hlength]]
      exact h.ahead e he
    · exact (h.ahead e he).trans hbefore

theorem next (h : s.Orderly tokens stop) (htokens : Ascending tokens stop) :
    s.next.Orderly tokens stop :=
  h.pass rfl rfl (List.tail_suffix s.rest) (.inr (h.before_next htokens))

/-- One more error is recorded. All others are about tokens in front of its
    token, and the token ahead comes behind that. -/
theorem record (h : s.Orderly tokens stop) {e : ParseError}
    (hreal : e.token ∈ tokens ++ [Token.finish stop] ∧ e.Fits)
    (hlast : ∀ f ∈ s.errors, f.token.Before stop e.token) (hahead : e.token.Before stop s.peek) :
    ({ s with errors := s.errors ++ [e] } : ParseState).Orderly tokens stop where
  rest := h.rest
  length := h.length
  real f hf := by
    rcases List.mem_append.mp hf with hf | hf
    · exact h.real f hf
    · rw [List.mem_singleton.mp hf]
      exact hreal
  ordered := by
    refine List.pairwise_append.mpr ⟨h.ordered, List.pairwise_singleton _ _, fun f hf g hg => ?_⟩
    rw [List.mem_singleton.mp hg]
    exact hlast f hf
  ahead f hf := by
    rcases List.mem_append.mp hf with hf | hf
    · exact h.ahead f hf
    · rw [List.mem_singleton.mp hf]
      exact hahead

end Orderly

/-- Behind a statement the errors are in order, or the last of them is about a
    closing brace that is ahead, and they are in order behind that. -/
def Settled (tokens : List Token) (stop : Nat) (s : ParseState) : Prop :=
  s.Orderly tokens stop ∨
    s.openBlocks ≠ 0 ∧ s.peek.kind = .rightBrace ∧ s.next.Orderly tokens stop

/-- An error has arisen. Its token comes behind those of all errors from before
    and has just been consumed, or it is the token ahead. An error that ends its
    statement has consumed its token. -/
structure Stopped (tokens : List Token) (stop : Nat) (e : ParseError) (s : ParseState) :
    Prop where
  orderly : s.Orderly tokens stop
  real : e.token ∈ tokens ++ [Token.finish stop] ∧ e.Fits
  last : ∀ f ∈ s.errors, f.token.Before stop e.token
  ahead : e.token.Before stop s.peek ∨ e.token = s.peek ∧ endsStatement e = false

/-- The skipping passes over some tokens, or it ends at once: at the end, or
    at a closing brace of an open block. -/
theorem skip_eq_self {inBlock : Bool} {rest : List Token} (h : skip inBlock rest = rest) :
    rest = [] ∨ ∃ t ts, rest = t :: ts ∧ inBlock = true ∧ t.kind = .rightBrace := by
  cases rest with
  | nil => exact .inl rfl
  | cons t ts =>
      unfold skip at h
      by_cases hbrace : (inBlock && t.kind == .rightBrace) = true
      · rcases Bool.and_eq_true_iff.mp hbrace with ⟨hin, hk⟩
        exact .inr ⟨t, ts, rfl, hin, beq_iff_eq.mp hk⟩
      · -- In all other cases the first token is passed over.
        rw [if_neg hbrace] at h
        have hlen := congrArg List.length h
        split at hlen
        · simp only [List.length_cons] at hlen
          omega
        · have hle := (skip_suffix inBlock ts).length_le
          simp only [List.length_cons] at hlen
          omega

/-- After the recovery from an error, errors are in order again. -/
theorem Stopped.recover {tokens : List Token} {stop : Nat} {s : ParseState} {e : ParseError}
    (h : s.Stopped tokens stop e) (htokens : Ascending tokens stop) :
    (s.recover e).Settled tokens stop := by
  -- What is to be shown once the token ahead comes behind that of the error.
  have hbehind : ∀ t : ParseState, t.length = s.length → t.errors = s.errors →
      t.rest <:+ s.rest → (t.rest = s.rest ∨ s.peek.Before stop t.peek) →
      e.token.Before stop t.peek →
      ({ t with errors := t.errors ++ [e] } : ParseState).Orderly tokens stop := by
    intro t hlength herrors hrest hpeek hahead
    exact (h.orderly.pass hlength herrors hrest hpeek).record h.real (herrors ▸ h.last) hahead
  by_cases hends : endsStatement e = true
  · have hahead : e.token.Before stop s.peek :=
      h.ahead.resolve_right fun hsame => Bool.false_ne_true (hsame.2.symm.trans hends)
    have hrecover : s.recover e = { s with errors := s.errors ++ [e] } := by
      rw [ParseState.recover, if_pos hends]
    rw [hrecover]
    exact .inl (hbehind s rfl rfl List.suffix_rfl (.inl rfl) hahead)
  · have hrecover : s.recover e
        = { s with errors := s.errors ++ [e], rest := skip (s.openBlocks != 0) s.rest } := by
      rw [ParseState.recover, if_neg hends]
    rw [hrecover]
    by_cases hskip : skip (s.openBlocks != 0) s.rest = s.rest
    · rw [hskip]
      by_cases hahead : e.token.Before stop s.peek
      · exact .inl (hbehind s rfl rfl List.suffix_rfl (.inl rfl) hahead)
      · have hsame : e.token = s.peek := (h.ahead.resolve_left hahead).1
        rcases skip_eq_self hskip with hnil | ⟨t, ts, hcons, hin, hk⟩
        · -- At the end of the text the error is about the end of input.
          have hpeek : s.peek = .finish stop := by rw [peek, hnil, ← h.orderly.length]; rfl
          exact absurd (.inr ⟨hsame.trans hpeek, hpeek⟩) hahead
        · have hpeek : s.peek = t := by rw [peek, hcons]; rfl
          refine .inr ⟨bne_iff_ne.mp hin, (congrArg Token.kind hpeek).trans hk, ?_⟩
          exact hbehind s.next rfl rfl (List.tail_suffix s.rest)
            (.inr (h.orderly.before_next htokens)) (hsame ▸ h.orderly.before_next htokens)
    · -- Something is skipped, so what is ahead comes behind what was ahead before.
      have hbefore := h.orderly.before_peek htokens
        (t := { s with rest := skip (s.openBlocks != 0) s.rest }) rfl (skip_suffix _ _) hskip
      refine .inl (hbehind { s with rest := skip (s.openBlocks != 0) s.rest } rfl rfl
        (skip_suffix _ _) (.inr hbefore) ?_)
      rcases h.ahead with hahead | ⟨hsame, -⟩
      · exact hahead.trans hbefore
      · exact hsame ▸ hbefore

end ParseState

/-- A run paired with itself, between states in which errors are in order. -/
def ordering (tokens : List Token) (stop : Nat) : Pairing where
  meets s t := t = s ∧ s.Orderly tokens stop
  ended s t := t = s ∧ s.Settled tokens stop
  fails e s f t := f = e ∧ t = s ∧ s.Stopped tokens stop e
  braced := True

section

variable {tokens : List Token} {stop : Nat}

/-- Whatever is done with the next token, errors are in order again. -/
theorem ordering_kept (htokens : Ascending tokens stop) : (ordering tokens stop).Kept where
  peek := by
    rintro s _ ⟨rfl, -⟩
    exact .inl rfl
  brace _ _ := trivial
  next := by
    rintro s _ ⟨rfl, hs⟩ - - -
    exact ⟨rfl, hs.next htokens⟩
  semicolon := by
    rintro s _ ⟨rfl, hs⟩ - -
    exact ⟨rfl, .inl (hs.next htokens)⟩
  still h := ⟨h.1, .inl h.2⟩
  expected := by
    rintro s _ k ⟨rfl, hs⟩ hk
    exact ⟨rfl, rfl, hs, ⟨hs.peek_mem, hk⟩, hs.ahead, .inr ⟨rfl, rfl⟩⟩
  unexpected := by
    rintro s _ ⟨rfl, hs⟩ hk
    exact ⟨rfl, rfl, hs.next htokens, ⟨hs.peek_mem, hk⟩, hs.ahead, .inl (hs.before_next htokens)⟩
  outOfRange := by
    rintro s _ ⟨rfl, hs⟩ - hk
    exact ⟨rfl, rfl, hs.next htokens, ⟨hs.peek_mem, hk⟩, hs.ahead, .inl (hs.before_next htokens)⟩
  recover := by
    rintro e s _ _ ⟨rfl, rfl, h⟩
    exact ⟨rfl, h.recover htokens⟩
  opened := by
    rintro s _ - ⟨rfl, hs⟩
    exact ⟨rfl, { hs with }⟩
  closed := by
    rintro s _ - ⟨rfl, hs⟩
    exact ⟨rfl, { hs with }⟩
  fails_closed := by
    rintro e s _ _ - ⟨rfl, rfl, h⟩
    exact ⟨rfl, rfl, { h with orderly := { h.orderly with } }⟩
  within := by
    rintro s _ - ⟨rfl, hs | ⟨-, hk, -⟩⟩ hbrace
    · exact ⟨rfl, hs⟩
    · exact absurd hk hbrace
  ends := by
    rintro s _ - ⟨rfl, hs | ⟨-, -, hs⟩⟩ -
    · exact ⟨rfl, rfl, hs.next htokens⟩
    · exact ⟨rfl, rfl, hs⟩

/-- One statement outside of every block. No error is left behind whose token
    is ahead, because no brace is waited for there. -/
theorem orderly_recovering (htokens : Ascending tokens stop) {room : Nat} {s : ParseState}
    (hs : s.Orderly tokens stop) (houter : s.openBlocks = 0) (hroom : s.rest.length < room)
    (hfinish : s.peek.kind ≠ .finish) :
    (Parser.recovering (Parser.statement (Parser.expression room)) s).Holds
      (fun _ s' => s'.Orderly tokens stop ∧ s'.openBlocks = 0 ∧
        s'.rest.length < s.rest.length)
      (fun _ _ => False) := by
  have hkept := ordering_kept htokens
  have hpairs := Parser.pairs_recovering hkept
    (Parser.pairs_expression hkept (Nat.le_refl room)) (s := s) (t := s) ⟨rfl, hs⟩
  have hreads := Parser.reads_recovering (Parser.reads_expression room) s hroom hfinish
  unfold Parser.Pairs at hpairs
  generalize Parser.recovering _ s = outcome at hpairs hreads ⊢
  cases hpairs with
  | @ok st s' _ h =>
      rcases hreads with ⟨hleads, hless⟩
      have houter' : s'.openBlocks = 0 := hleads.openBlocks.trans houter
      exact ⟨h.2.resolve_right fun hbrace => hbrace.1 houter', houter', hless⟩
  | failed _ => exact hreads
  | exhausted => exact hreads

/-- All statements of a text. -/
theorem orderly_program (htokens : Ascending tokens stop) (room : Nat) :
    ∀ n, n ≤ room → ∀ s : ParseState, s.Orderly tokens stop → s.openBlocks = 0 →
      s.rest.length < n → (Parser.program (Parser.expression room) n s).Holds
        (fun _ s' => s'.Orderly tokens stop) (fun _ _ => False) := by
  intro n
  induction n with
  | zero =>
      intro _ s _ _ hlt
      exact absurd hlt (Nat.not_lt_zero _)
  | succ n ih =>
      intro hn s hs houter hlt
      simp only [Parser.program, Parser.holds_bind, Parser.holds_peek, Parser.holds_ite,
        Parser.holds_pure]
      refine ⟨fun _ => hs, fun hfinish => ?_⟩
      refine (orderly_recovering htokens hs houter (by omega) hfinish).mono
        (fun st s₁ h => ?_) (fun _ _ h => h)
      rcases h with ⟨hs₁, houter₁, hless⟩
      exact ih (by omega) s₁ hs₁ houter₁ (by omega)

theorem orderly_parseTokens (htokens : Ascending tokens stop) :
    ∃ s : ParseState, s.Orderly tokens stop ∧ s.errors = (parseTokens tokens stop).errors := by
  have hprogram := orderly_program htokens (tokens.length + 1) _ (Nat.le_refl _)
    (.start tokens stop) (.start tokens stop) rfl (Nat.lt_succ_self _)
  rcases exists_program tokens stop with ⟨s, hrun, herrors, -, -⟩
  rw [hrun] at hprogram
  exact ⟨s, hprogram, herrors⟩

end

/-- The tokens of a source, each of which starts behind those in front of
    it. -/
theorem ascending_read (source : String) :
    Ascending (Lexer.read source).tokens (Lexer.read source).length := by
  have hcovers := (Lexer.at_ofString source).covers.1
  have hlength : (Lexer.read source).length = source.utf8ByteSize :=
    (Lexer.at_ofString source).covers.2
  refine List.pairwise_append.mpr ⟨?_, List.pairwise_singleton _ _, fun t ht u hu => ?_⟩
  · refine hcovers.ordered.imp_of_mem fun ht _ hstop => ?_
    exact Nat.lt_of_lt_of_le (hcovers.marks _ ht).nonempty hstop
  · -- A token has a character, so it starts in front of the end.
    have hmarks := hcovers.marks t ht
    rw [List.mem_singleton.mp hu, hlength]
    exact Nat.lt_of_lt_of_le hmarks.nonempty hmarks.cuts.2.le_utf8ByteSize

/-- Each error in a text is about a token of the text or the end of input, says
    what is wrong with that token, quotes it and points at it. Errors are about
    tokens in the order of the text, each about another one, except that several
    may be about the end of input. -/
theorem parse_errors_ordered (source : String) :
    (∀ e ∈ (parse source).errors,
      e.token ∈ (Lexer.read source).tokens ++ [Token.finish source.utf8ByteSize] ∧
      match e with
      | .expected kind found => found.kind ≠ kind ∧
          e.message = "expected next token to be `" ++ kind.name ++ "`, got `" ++ found.shown
            ++ "` instead " ++ found.span.shown
      | .unexpected found => found.kind ∉ Grammar.starting ∧
          e.message = "no prefix parse function for `" ++ found.shown ++ "` found "
            ++ found.span.shown
      | .outOfRange literal => literal.kind = .integer ∧
          e.message = "could not parse `" ++ literal.literal ++ "` as integer "
            ++ literal.span.shown) ∧
    (parse source).errors.Pairwise fun e f =>
      e.token.span.start ≤ f.token.span.start ∧
      (e.token.span.start < f.token.span.start ∨
        e.token = .finish source.utf8ByteSize ∧ f.token = .finish source.utf8ByteSize) := by
  have hlength : (Lexer.read source).length = source.utf8ByteSize :=
    (Lexer.at_ofString source).covers.2
  rcases orderly_parseTokens (ascending_read source) with ⟨s, hs, herrors⟩
  have hparse : (parse source).errors = s.errors := herrors.symm
  rw [hparse, ← hlength]
  refine ⟨fun e he => ⟨(hs.real e he).1, ?_⟩, hs.ordered.imp fun h => ⟨h.le, h⟩⟩
  have hfits := (hs.real e he).2
  cases e with
  | expected kind found => exact ⟨hfits, rfl⟩
  | unexpected found => exact ⟨hfits, rfl⟩
  | outOfRange literal => exact ⟨hfits, rfl⟩

end Monkey
