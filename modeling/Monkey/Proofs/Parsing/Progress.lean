import Monkey.Proofs.Parsing.Language
import Monkey.Proofs.Parsing.Order

/-!
# Parsing Comes to an End

Every text is parsed to its end, and it has no more errors than tokens.

The fuel of the parser is an upper limit on how deeply its routines may be
nested and on how often its loops may be run through. More of it than there are
unread tokens makes no difference, because each round of a loop and each inner
expression consumes a token first. So the parser would come to the same end
without any limit, and that is what termination means here: from any state, with
any tokens in any order, there is one end that all runs with enough fuel come
to, and runs with less of it come to that end or to none.

Errors are bounded by the tokens although some errors consume none: an error
about a token that is found in place of another one, or about the end of input,
leaves it unread. But a statement that fails has consumed its first token,
whatever that is, before anything can go wrong. So what is unread and what is
recorded do not grow together, and each statement that fails has a token to
spare for its error.

That argument looks at the beginning of a statement and at its end and at
nothing in between, and all routines are alike in it. `Stepwise` collects what it
needs to know of a single step.

## Main definitions

* `Stepwise`: A relation between states that is kept step by step.
* `Parser.Keeps`, `Parser.KeepsNext`: A parser keeps to such a relation, from its
  first state or from behind its first token.
* `rerun`: A run paired with itself, with more fuel.

## Theorems

* `Parser.Keeps.bind`, `Parser.keeps_recovering` and the like: Ways to build a
  parser.
* `Parser.keeps_expression`, `Parser.keeps_program`: Expressions and programs.
* `stepwise_unread`: Tokens and errors do not become more.
* `Parser.runs_alike`: More fuel than is needed changes nothing.
* `parse_consumes_all`: What becomes of a text.
-/

namespace Monkey

/-- A relation between an earlier state and a later one that is kept as long as
    tokens are consumed one by one and blocks are closed as they were opened. An
    error may be recorded once the first token of its statement is consumed. -/
structure Stepwise (T : ParseState → ParseState → Prop) : Prop where
  refl : ∀ s, T s s
  trans : ∀ {s t u}, T s t → T t u → T s u
  next : ∀ s, T s s.next
  recover : ∀ {s t e}, s.peek.kind ≠ .finish → T s.next t → T s (t.recover e)
  inBlock : ∀ {s t}, T s.opened t → T s t.closed

/-- Where a parser ended, if it did: by success or by failure. -/
def Outcome.Reaches {α : Type} (outcome : Outcome α) (P : ParseState → Prop) : Prop :=
  match outcome with
  | .ok _ s => P s
  | .failed _ s => P s
  | .exhausted => True

theorem Outcome.Reaches.mono {α : Type} {outcome : Outcome α} {P Q : ParseState → Prop}
    (h : outcome.Reaches P) (hpq : ∀ s, P s → Q s) : outcome.Reaches Q := by
  cases outcome with
  | ok a s => exact hpq s h
  | failed e s => exact hpq s h
  | exhausted => trivial

namespace Parser

variable {α β : Type} {T : ParseState → ParseState → Prop} {p : Parser α} {f : α → Parser β}

/-- A parser keeps to a relation from the state in which it starts. -/
def Keeps (T : ParseState → ParseState → Prop) (p : Parser α) : Prop :=
  ∀ s, (p s).Reaches (T s)

/-- A parser consumes a token and keeps to a relation from then on. -/
def KeepsNext (T : ParseState → ParseState → Prop) (p : Parser α) : Prop :=
  ∀ s, (p s).Reaches (T s.next)

theorem reaches_peek_bind {f : Token → Parser α} {s : ParseState} {P : ParseState → Prop}
    (h : (f s.peek s).Reaches P) : ((peek >>= f) s).Reaches P :=
  h

theorem keepsNext_take_bind {f : Token → Parser α} (h : ∀ t, Keeps T (f t)) :
    KeepsNext T (take >>= f) :=
  fun s => h s.peek s.next

theorem keepsNext_peek_bind {f : Token → Parser α} (h : ∀ t, KeepsNext T (f t)) :
    KeepsNext T (peek >>= f) :=
  fun s => h s.peek s

theorem keeps_exhausted : Keeps T (exhausted : Parser α) :=
  fun _ => trivial

section

variable (hT : Stepwise T)

include hT

theorem keeps_pure (a : α) : Keeps T (pure a) :=
  fun s => hT.refl s

theorem keeps_fail (e : ParseError) : Keeps T (fail e : Parser α) :=
  fun s => hT.refl s

/-- One parser behind another one that has kept to the relation from some state
    on. -/
theorem reaches_bind {r s : ParseState} (hp : (p s).Reaches (T r))
    (hf : ∀ a s', (f a s').Reaches (T s')) : ((p >>= f) s).Reaches (T r) := by
  simp only [Bind.bind]
  cases hrun : p s with
  | ok a s' =>
      rw [hrun] at hp
      exact (hf a s').mono fun _ hrest => hT.trans hp hrest
  | failed e s' =>
      rw [hrun] at hp
      exact hp
  | exhausted => trivial

theorem Keeps.bind (hp : Keeps T p) (hf : ∀ a, Keeps T (f a)) : Keeps T (p >>= f) :=
  fun s => reaches_bind hT (hp s) fun a s' => hf a s'

theorem KeepsNext.bind (hp : KeepsNext T p) (hf : ∀ a, Keeps T (f a)) : KeepsNext T (p >>= f) :=
  fun s => reaches_bind hT (hp s) fun a s' => hf a s'

/-- To consume a token first is a way to keep to the relation. -/
theorem KeepsNext.keeps (hp : KeepsNext T p) : Keeps T p :=
  fun s => (hp s).mono fun _ hrest => hT.trans (hT.next s) hrest

theorem keeps_peek : Keeps T peek :=
  fun s => hT.refl s

theorem keeps_take : Keeps T take :=
  fun s => hT.next s

theorem keeps_accept (k : Kind) : Keeps T (accept k) := by
  intro s
  unfold accept
  split
  · exact hT.next s
  · exact hT.refl s

theorem keeps_expect (k : Kind) : Keeps T (expect k) := by
  intro s
  unfold expect
  split
  · exact hT.next s
  · exact hT.refl s

theorem Keeps.inBlock (hp : Keeps T p) : Keeps T (inBlock p) := by
  intro s
  have hinner := hp s.opened
  unfold Parser.inBlock
  unfold ParseState.opened at hinner
  cases hrun : p { s with openBlocks := s.openBlocks + 1 } with
  | ok a s' =>
      rw [hrun] at hinner
      exact hT.inBlock hinner
  | failed e s' =>
      rw [hrun] at hinner
      exact hT.inBlock hinner
  | exhausted => trivial

/-- A failure is recorded behind the first token of what has failed. -/
theorem keeps_recovering (hp : KeepsNext T p) {s : ParseState} (hfinish : s.peek.kind ≠ .finish) :
    (recovering p s).Reaches (T s) := by
  have hnext := hp s
  unfold recovering
  cases hrun : p s with
  | ok a s' =>
      rw [hrun] at hnext
      exact hT.trans (hT.next s) hnext
  | failed e s' =>
      rw [hrun] at hnext
      exact hT.recover hfinish hnext
  | exhausted => trivial

theorem keeps_commaTail (hp : Keeps T p) (n : Nat) : Keeps T (commaTail p n) := by
  induction n with
  | zero => exact keeps_exhausted
  | succ n ih =>
      refine (keeps_accept hT .comma).bind hT fun more => ?_
      split
      · exact hp.bind hT fun _ => ih.bind hT fun _ => keeps_pure hT _
      · exact keeps_pure hT _

theorem keeps_listUpTo (hp : Keeps T p) (close : Kind) (n : Nat) :
    Keeps T (listUpTo close p n) := by
  refine (keeps_accept hT close).bind hT fun empty => ?_
  split
  · exact keeps_pure hT _
  · refine hp.bind hT fun _ => (keeps_commaTail hT hp n).bind hT fun _ => ?_
    exact (keeps_expect hT close).bind hT fun _ => keeps_pure hT _

theorem keeps_parameter : Keeps T parameter :=
  (keeps_expect hT .identifier).bind hT fun _ => keeps_pure hT _

theorem keeps_integer (t : Token) : Keeps T (integer t) := by
  unfold integer
  split
  · exact keeps_pure hT _
  · exact keeps_fail hT _

variable {self : Precedence → Parser Expr} (hself : ∀ p, KeepsNext T (self p))

include hself

theorem keeps_pairs (n : Nat) : Keeps T (pairsUpToBrace self n) := by
  induction n with
  | zero => exact keeps_exhausted
  | succ n ih =>
      refine (keeps_accept hT .rightBrace).bind hT fun empty => ?_
      split
      · exact keeps_pure hT _
      refine ((hself .lowest).keeps hT).bind hT fun _ => ?_
      refine (keeps_expect hT .colon).bind hT fun _ => ?_
      refine ((hself .lowest).keeps hT).bind hT fun _ => (keeps_peek hT).bind hT fun _ => ?_
      split
      · exact ih.bind hT fun _ => keeps_pure hT _
      · exact (keeps_expect hT .comma).bind hT fun _ => ih.bind hT fun _ => keeps_pure hT _

/-- A statement consumes its first token before it can fail, whatever it is. -/
theorem keepsNext_statement : KeepsNext T (statement self) := by
  have hvalue := (hself .lowest).keeps hT
  have hbare : KeepsNext T (bareStatement self) := by
    refine keepsNext_peek_bind fun t => ?_
    split
    · refine keepsNext_take_bind fun _ => (keeps_expect hT .identifier).bind hT fun _ => ?_
      exact (keeps_expect hT .assign).bind hT fun _ => hvalue.bind hT fun _ => keeps_pure hT _
    · exact keepsNext_take_bind fun _ => hvalue.bind hT fun _ => keeps_pure hT _
    · exact (hself .lowest).bind hT fun _ => keeps_pure hT _
  exact hbare.bind hT fun _ => (keeps_accept hT .semicolon).bind hT fun _ => keeps_pure hT _

theorem keeps_statementsUpToBrace (n : Nat) : Keeps T (statementsUpToBrace self n) := by
  induction n with
  | zero => exact keeps_exhausted
  | succ n ih =>
      intro s
      refine reaches_peek_bind ?_
      generalize hk : s.peek.kind = k
      split
      · exact (keeps_take hT).bind hT (fun _ => keeps_pure hT _) s
      · exact keeps_pure hT _ s
      · -- Something other than the end is ahead, so the statement has a token to consume.
        rename_i _ hfinish
        have hstatement := keeps_recovering hT (keepsNext_statement hT hself) (hk ▸ hfinish)
        exact reaches_bind hT hstatement fun _ s' => ih.bind hT (fun _ => keeps_pure hT _) s'

theorem keeps_block (n : Nat) : Keeps T (block self n) :=
  (keeps_statementsUpToBrace hT hself n).inBlock hT

theorem keeps_conditional (n : Nat) : Keeps T (conditional self n) := by
  induction n with
  | zero => exact keeps_exhausted
  | succ n ih =>
      have hblock := keeps_block hT hself n
      refine ((hself .lowest).keeps hT).bind hT fun _ => ?_
      refine (keeps_expect hT .leftBrace).bind hT fun _ => hblock.bind hT fun _ => ?_
      refine (keeps_accept hT .elseWord).bind hT fun more => ?_
      split
      · refine (keeps_accept hT .ifWord).bind hT fun again => ?_
        split
        · exact ih.bind hT fun _ => keeps_pure hT _
        · refine (keeps_expect hT .leftBrace).bind hT fun _ => ?_
          exact hblock.bind hT fun _ => keeps_pure hT _
      · exact keeps_pure hT _

theorem keeps_function (n : Nat) : Keeps T (function self n) := by
  refine (keeps_expect hT .leftParen).bind hT fun _ => ?_
  refine (keeps_listUpTo hT (keeps_parameter hT) .rightParen n).bind hT fun _ => ?_
  refine (keeps_expect hT .leftBrace).bind hT fun _ => ?_
  exact (keeps_block hT hself n).bind hT fun _ => keeps_pure hT _

/-- An operand starts with a token, which it consumes even if it refuses it. -/
theorem keepsNext_operand (n : Nat) : KeepsNext T (operand self n) := by
  have hvalue := fun p => (hself p).keeps hT
  refine keepsNext_take_bind fun t => ?_
  split
  case h_2 => exact keeps_integer hT t
  case h_6 | h_7 => exact (hvalue .unary).bind hT fun _ => keeps_pure hT _
  case h_8 =>
      refine (hvalue .lowest).bind hT fun _ => ?_
      exact (keeps_expect hT .rightParen).bind hT fun _ => keeps_pure hT _
  case h_9 => exact keeps_conditional hT hself n
  case h_10 => exact keeps_function hT hself n
  case h_11 =>
      exact (keeps_listUpTo hT (hvalue .lowest) .rightBracket n).bind hT fun _ => keeps_pure hT _
  case h_12 => exact (keeps_pairs hT hself n).bind hT fun _ => keeps_pure hT _
  case h_13 => exact keeps_fail hT _
  all_goals exact keeps_pure hT _

theorem keeps_operator (n : Nat) (t : Token) (left : Expr) :
    Keeps T (operator self n t left) := by
  have hvalue := fun p => (hself p).keeps hT
  unfold operator
  split
  · exact (keeps_listUpTo hT (hvalue .lowest) .rightParen n).bind hT fun _ => keeps_pure hT _
  · refine (hvalue .lowest).bind hT fun _ => ?_
    exact (keeps_expect hT .rightBracket).bind hT fun _ => keeps_pure hT _
  · exact (hvalue _).bind hT fun _ => keeps_pure hT _

theorem keeps_operators (n : Nat) (p : Precedence) (m : Nat) :
    ∀ left, Keeps T (operators self n p m left) := by
  induction m with
  | zero => exact fun _ => keeps_exhausted
  | succ m ih =>
      intro left
      refine (keeps_peek hT).bind hT fun t => ?_
      split
      · refine (keeps_take hT).bind hT fun _ => ?_
        exact (keeps_operator hT hself n t left).bind hT ih
      · exact keeps_pure hT _

theorem keeps_program (n : Nat) : Keeps T (program self n) := by
  induction n with
  | zero => exact keeps_exhausted
  | succ n ih =>
      intro s
      refine reaches_peek_bind ?_
      by_cases hfinish : s.peek.kind = .finish
      · rw [if_pos hfinish]
        exact hT.refl s
      · rw [if_neg hfinish]
        have hstatement := keeps_recovering hT (keepsNext_statement hT hself) hfinish
        exact reaches_bind hT hstatement fun _ s' => ih.bind hT (fun _ => keeps_pure hT _) s'

omit hself

theorem keeps_expression (n : Nat) : ∀ p, KeepsNext T (expression n p) := by
  induction n with
  | zero => exact fun _ _ => trivial
  | succ n ih =>
      intro p
      exact (keepsNext_operand hT ih n).bind hT fun left => keeps_operators hT ih n p n left

end

end Parser

/-- The unread tokens and the errors together do not become more. -/
theorem stepwise_unread : Stepwise fun s t =>
    t.errors.length + t.rest.length ≤ s.errors.length + s.rest.length where
  refl _ := Nat.le_refl _
  trans h h' := Nat.le_trans h' h
  next s := Nat.add_le_add_left (List.tail_suffix s.rest).length_le _
  recover {s t e} hfinish h := by
    have hfirst := s.next_rest_length rfl hfinish
    have hskipped := (t.leads_recover e True).rest_length_le
    have herrors : (t.recover e).errors.length = t.errors.length + 1 := List.length_append
    have hsame : s.next.errors = s.errors := rfl
    rw [hsame] at h
    omega
  inBlock h := h

/-- There are no more errors in some tokens than there are tokens. -/
theorem parseTokens_errors_length_le (tokens : List Token) (length : Nat) :
    (parseTokens tokens length).errors.length ≤ tokens.length := by
  have hkeeps := Parser.keeps_program stepwise_unread (Parser.keeps_expression stepwise_unread
    (tokens.length + 1)) (tokens.length + 1) (.start tokens length)
  rcases exists_program tokens length with ⟨s, hrun, herrors, -⟩
  rw [hrun] at hkeeps
  have hcount : s.errors.length + s.rest.length ≤ 0 + tokens.length := hkeeps
  rw [← herrors]
  omega

/-- A run paired with itself. -/
def rerun : Pairing where
  meets s t := t = s
  ended s t := t = s
  fails e s f t := f = e ∧ t = s
  braced := True

theorem rerun_kept : rerun.Kept where
  peek := by rintro s _ rfl; exact .inl rfl
  brace _ _ := trivial
  next := by rintro s _ rfl - - -; rfl
  semicolon := by rintro s _ rfl - -; rfl
  still h := h
  expected := by rintro s _ k rfl -; exact ⟨rfl, rfl⟩
  unexpected := by rintro s _ rfl -; exact ⟨rfl, rfl⟩
  outOfRange := by rintro s _ rfl - -; exact ⟨rfl, rfl⟩
  recover := by rintro e s _ _ ⟨rfl, rfl⟩; rfl
  opened := by rintro s _ - rfl; rfl
  closed := by rintro s _ - rfl; rfl
  fails_closed := by rintro e s _ _ - ⟨rfl, rfl⟩; exact ⟨rfl, rfl⟩
  within _ h _ := h
  ends := by rintro s _ - rfl -; exact ⟨rfl, rfl⟩

namespace Parser

variable {α : Type}

/-- A run with more fuel comes to the same end, if the first one comes to an
    end. -/
theorem rerun_eq {first second : Outcome α} (h : first.Pairs rerun rerun.meets second) :
    first = .exhausted ∨ second = first := by
  cases h with
  | @ok a s t h => exact .inr (by rw [show t = s from h])
  | failed h =>
      rcases h with ⟨rfl, rfl⟩
      exact .inr rfl
  | exhausted => exact .inl rfl

/-- If a run comes to an end with some fuel then all runs with more of it come to
    the same end, and no run comes to another one. -/
theorem runs_alike {run : Nat → Outcome α} {enough : Nat} {a : α} {s : ParseState}
    (hpairs : ∀ {n n'}, n ≤ n' → (run n).Pairs rerun rerun.meets (run n'))
    (hend : run enough = .ok a s) (room : Nat) :
    (run room = .exhausted ∨ run room = .ok a s) ∧ (enough ≤ room → run room = .ok a s) := by
  have hmore : enough ≤ room → run room = .ok a s := by
    intro hle
    rcases rerun_eq (hpairs hle) with hnone | hsame
    · rw [hend] at hnone
      cases hnone
    · exact hsame.trans hend
  refine ⟨?_, hmore⟩
  rcases Nat.le_total room enough with hle | hle
  · rcases rerun_eq (hpairs hle) with hnone | hsame
    · exact .inl hnone
    · exact .inr (hsame.symm.trans hend)
  · exact .inr (hmore hle)

/-- A statement is read to its end from any state, or skipped. No block is left
    open, and tokens are consumed unless there are none. -/
theorem recovering_ends (s : ParseState) : ∃ found s',
    recovering (statement (expression (s.rest.length + 1))) s = .ok found s' ∧
      s'.openBlocks = s.openBlocks ∧ s'.rest.length ≤ s.rest.length ∧
      (s.peek.kind ≠ .finish → s'.rest.length < s.rest.length) := by
  have hreads := reads_statement (reads_expression (s.rest.length + 1)) s (Nat.lt_succ_self _)
  unfold recovering
  cases hrun : statement (expression (s.rest.length + 1)) s with
  | ok st s' =>
      rw [hrun] at hreads
      rcases hreads with ⟨hleads, hless⟩
      exact ⟨some st, s', rfl, hleads.openBlocks, hleads.rest_length_le, fun _ => hless⟩
  | failed e s' =>
      rw [hrun] at hreads
      have hleads := ParseState.Leads.failed hreads (s'.leads_recover e True)
      have hle := hleads.rest_length_le
      have hnext := (ParseState.Leads.next s).rest_length_le
      refine ⟨none, s'.recover e, rfl, hleads.openBlocks, Nat.le_trans hle hnext, fun hfinish => ?_⟩
      have hfirst := s.next_rest_length rfl hfinish
      omega
  | exhausted =>
      rw [hrun] at hreads
      exact hreads.elim

end Parser

/-- Every text is parsed to its end. The parser comes to the same end whatever the
    fuel, as long as there is more of it than there are tokens, and behind the
    last token then, with no block open. There are no more errors than tokens.
    From whatever state a statement is read it comes to an end too, with as many
    blocks open as before and fewer tokens unread, unless the end of input is
    ahead. -/
theorem parse_consumes_all (source : String) :
    (∃ s : ParseState,
      (∀ room, (Lexer.read source).tokens.length < room →
        Parser.program (Parser.expression room) room
            (.start (Lexer.read source).tokens (Lexer.read source).length)
          = .ok (parse source).program s) ∧
      s.peek = .finish source.utf8ByteSize ∧ s.rest = [] ∧ s.openBlocks = 0 ∧
      s.errors = (parse source).errors) ∧
    (parse source).errors.length ≤ (Lexer.read source).tokens.length ∧
    ∀ s : ParseState, ∃ found s',
      (∀ room, Parser.recovering (Parser.statement (Parser.expression room)) s = .exhausted ∨
        Parser.recovering (Parser.statement (Parser.expression room)) s = .ok found s') ∧
      (∀ room, s.rest.length < room →
        Parser.recovering (Parser.statement (Parser.expression room)) s = .ok found s') ∧
      s'.openBlocks = s.openBlocks ∧ s'.rest.length ≤ s.rest.length ∧
      (s.peek.kind ≠ .finish → s'.rest.length < s.rest.length) := by
  refine ⟨?_, parseTokens_errors_length_le _ _, fun s => ?_⟩
  · rcases exists_program (Lexer.read source).tokens (Lexer.read source).length with
      ⟨s, hrun, herrors, hleads, hend⟩
    have hlisted := Lexer.readToEnd_kind_ne_finish (.ofString source)
    have hrest : s.rest = [] :=
      eq_nil_of_ahead (fun t ht => hlisted t (hleads.rest.mem ht)) hend
    have hlength : s.length = source.utf8ByteSize :=
      hleads.length.trans (Lexer.at_ofString source).covers.2
    have halike := Parser.runs_alike (fun {n n'} hn => Parser.pairs_program rerun_kept
      (Parser.pairs_expression rerun_kept hn) (fun h => h) trivial hn _ _ rfl) hrun
    refine ⟨s, fun room hroom => (halike room).2 hroom, ?_, hrest, hleads.openBlocks, herrors⟩
    rw [ParseState.peek, hrest, hlength]
    rfl
  · rcases Parser.recovering_ends s with ⟨found, s', hrun, hsame, hle, hless⟩
    have halike := Parser.runs_alike (fun {n n'} hn => Parser.pairs_recovering rerun_kept
      (Parser.pairs_expression rerun_kept hn) rfl) hrun
    exact ⟨found, s', fun room => (halike room).1, fun room => (halike room).2, hsame, hle, hless⟩

end Monkey
