import Monkey.Proofs.Parsing.Balance
import Monkey.Proofs.Parsing.Language
import Monkey.Proofs.Parsing.Surroundings

/-!
# Parsing Piece by Piece

What is wrong with a statement does not affect the others.

Behind a semicolon at the top level the parser starts afresh, however it came
there: nothing has been looked at behind the semicolon, and no block is open.
So the program in a text is that of its first part, up to the semicolon, and
that of the second part, one after the other, and so are the errors.

What the first part has to be like depends on its braces. Without braces it
may be as malformed as it likes, because the skipping after an error ends at
the semicolon at the latest. With braces it must not be malformed, since an
error may leave the parser in a block for which the semicolon is no end, and
its braces have to be balanced, since a block that is still open takes the
semicolon in.

`PassesOver` says that the parser comes past some tokens, with what it has
found in them and the errors that it has recorded. It is shown one statement
at a time. For a malformed part the statement is what the parser does without
anything behind it; for a correct one it is what the grammar derives.

## Main definitions

* `Parser.PassesOver`: The parser comes past some tokens.

## Theorems

* `Parser.PassesOver.statement`, `Parser.PassesOver.found`: One more statement
  in front.
* `Parser.passesOver_segment`: Tokens without braces.
* `Parser.passesOver_balanced`: A program with balanced braces.
* `parseTokens_append`: Tokens that the parser comes past, and others.
* `parseTokens_semicolon`: A program in two parts.
-/

namespace Monkey

open Grammar

namespace Parser

/-- Whatever stands behind some tokens and was recorded before, the parser
    comes past them with a program and some errors, and what it finds behind
    them is added to that. -/
def PassesOver (tokens : List Token) (found : Block) (errors : List ParseError) : Prop :=
  ∀ (behind : List Token) (length : Nat) (before : List ParseError) (n m : Nat),
    (tokens ++ behind).length < n → (tokens ++ behind).length < m →
      ∃ k, behind.length < k ∧ ∀ ss s,
        program (expression n) k ⟨behind, length, before ++ errors, 0⟩ = .ok ss s →
          program (expression n) m ⟨tokens ++ behind, length, before, 0⟩ = .ok (found ++ ss) s

theorem passesOver_nil : PassesOver [] [] [] := by
  intro behind length before n m _ hm
  refine ⟨m, hm, fun ss s h => ?_⟩
  rw [List.append_nil] at h
  exact h

/-- A program starts with what its first statement comes to. -/
theorem program_cons {self : Precedence → Parser Expr} {n : Nat} {s s₁ s₂ : ParseState}
    {found : Option Stmt} {ss : Block} (hk : s.peek.kind ≠ .finish)
    (hfirst : recovering (statement self) s = .ok found s₁)
    (hrest : program self n s₁ = .ok ss s₂) :
    program self (n + 1) s = .ok (found.toList ++ ss) s₂ := by
  change (if s.peek.kind = .finish then (pure [] : Parser Block) else
    recovering (statement self) >>= fun st => program self n >>= fun ss =>
      pure (st.toList ++ ss)) s = _
  rw [if_neg hk]
  simp only [Bind.bind, hfirst, hrest]
  rfl

/-- One more statement, which may fail, in front of what the parser comes
    past. -/
theorem PassesOver.statement {tokens rest : List Token} {found : Option Stmt} {ss : Block}
    {new errors : List ParseError} (hk : ahead tokens ≠ .finish)
    (hlen : rest.length < tokens.length)
    (hfirst : ∀ behind length before n, (tokens ++ behind).length < n →
      recovering (Parser.statement (expression n)) ⟨tokens ++ behind, length, before, 0⟩
        = .ok found ⟨rest ++ behind, length, before ++ new, 0⟩)
    (h : PassesOver rest ss errors) : PassesOver tokens (found.toList ++ ss) (new ++ errors) := by
  intro behind length before n m hn hm
  rcases exists_fuel hm with ⟨m, rfl⟩
  rw [List.length_append] at hn hm
  have hshort : (rest ++ behind).length = rest.length + behind.length := List.length_append
  rcases h behind length (before ++ new) n m (by omega) (by omega) with ⟨k, hlt, hrest⟩
  refine ⟨k, hlt, fun ss' s hrun => ?_⟩
  have hpeek : (ParseState.mk (tokens ++ behind) length before 0).peek.kind ≠ .finish := by
    rw [ParseState.peek_kind]
    cases tokens with
    | nil => exact absurd rfl hk
    | cons t ts => exact hk
  rw [← List.append_assoc] at hrun
  rw [List.append_assoc]
  refine program_cons hpeek (hfirst behind length before n ?_) (hrest ss' s hrun)
  rw [List.length_append]
  omega

/-- The parser comes past tokens without braces that end with a semicolon. -/
theorem passesOver_segment (n : Nat) : ∀ tokens : List Token, tokens.length ≤ n →
    (∀ t ∈ tokens, t.kind ≠ .finish) → Segment tokens ∨ tokens = [] →
      ∃ found errors, PassesOver tokens found errors := by
  induction n with
  | zero =>
      intro tokens hn _ _
      obtain rfl : tokens = [] := List.eq_nil_of_length_eq_zero (Nat.le_zero.mp hn)
      exact ⟨[], [], passesOver_nil⟩
  | succ n ih =>
      intro tokens hn hfinish hsegment
      rcases hsegment with hsegment | rfl
      · have hk : ahead tokens ≠ .finish := fun h => by
          rw [eq_nil_of_ahead hfinish h] at hsegment
          cases hsegment
        -- What becomes of the first statement is found out with nothing behind the tokens.
        have hreads := reads_recovering (reads_expression (tokens.length + 1)) ⟨tokens, 0, [], 0⟩
          (Nat.lt_succ_self _) (by rw [ParseState.peek_kind]; exact hk)
        cases hrun : recovering (statement (expression (tokens.length + 1))) ⟨tokens, 0, [], 0⟩ with
        | failed e s =>
            rw [hrun] at hreads
            exact hreads.elim
        | exhausted =>
            rw [hrun] at hreads
            exact hreads.elim
        | ok st s =>
            rw [hrun] at hreads
            rcases hreads with ⟨hleads, hless⟩
            change s.rest.length < tokens.length at hless
            have hfollows : ∀ (c : Surroundings) (m : Nat), c.inner = 0 → tokens.length < m →
                recovering (statement (expression m))
                    ((ParseState.mk tokens 0 [] 0).within c) = .ok st (s.within c)
                  ∧ c.Ended s := by
              intro c m hinner hm
              have hapart : c.Apart ⟨tokens, 0, [], 0⟩ := ⟨hinner.symm, .inr hsegment⟩
              have h := follows_recovering (follows_expression hm) hapart
              unfold Follows at h
              rw [hrun] at h
              exact h
            have hrest : Segment s.rest ∨ s.rest = [] :=
              (hfollows ⟨[], [], 0, 1⟩ _ rfl (Nat.lt_succ_self _)).2.ended.resolve_left
                fun hbare => absurd hbare.2 (by decide)
            rcases ih s.rest (by omega) (fun t ht => hfinish t (hleads.rest.mem ht)) hrest with
              ⟨ss, errors, hpasses⟩
            have hwhole : PassesOver tokens (st.toList ++ ss) (s.errors ++ errors) := by
              refine hpasses.statement hk hless fun behind length before m hm => ?_
              rw [List.length_append] at hm
              have h := (hfollows ⟨before, behind, 0, length⟩ m rfl (by omega)).1
              have hopen : s.openBlocks = 0 := hleads.openBlocks
              simp only [ParseState.within, List.append_nil, hopen] at h
              exact h
            exact ⟨_, _, hwhole⟩
      · exact ⟨[], [], passesOver_nil⟩

variable {semi : Token}

/-- A semicolon where a statement could start is an error, and ends what it
    starts. -/
theorem passesOver_semicolon (hsemi : semi.kind = .semicolon) :
    PassesOver [semi] [] [.unexpected semi] := by
  have h : PassesOver [semi] ((none : Option Stmt).toList ++ []) ([.unexpected semi] ++ []) := by
    refine passesOver_nil.statement (by rw [ahead_cons, hsemi]; decide) (by simp) ?_
    intro behind length before n hn
    rcases exists_fuel hn with ⟨n, rfl⟩
    simp [Parser.recovering, Parser.statement, bareStatement, Bind.bind, peek, expression, operand,
      take, fail, ParseState.peek, hsemi, ParseState.recover, ParseState.endsStatement]
  exact h

/-- A statement that has been derived is found whatever stands behind it, if
    its braces are balanced. -/
theorem finds_statement {st : Stmt} {i o tail : List Token} (h : Derives .statement st i o)
    (hbalanced : excess o = excess i)
    (hk : ahead (o ++ tail) ∉ continuing ∧ ahead (o ++ tail) ≠ .elseWord)
    {n : Nat} (hn : (i ++ tail).length < n) :
    Finds (bareStatement (expression n)) st (i ++ tail) (o ++ tail) := by
  have hextended := h.extend nofun (hbalanced.trans (Int.add_zero _).symm) tail
  exact parsed_of_derives hextended hk n n hn hn

/-- One more statement that is found, in front of what the parser comes
    past. -/
theorem PassesOver.found {st : Stmt} {ss : Block} {i o rest : List Token}
    {errors : List ParseError} (hst : Derives .statement st i o)
    (hlen : rest.length ≤ i.length)
    (hfound : ∀ behind n, (i ++ semi :: behind).length < n →
      Finds (Parser.statement (expression n)) st (i ++ semi :: behind) (rest ++ behind))
    (h : PassesOver rest ss errors) : PassesOver (i ++ [semi]) (st :: ss) errors := by
  have hk : ahead (i ++ [semi]) ≠ .finish := fun hk => by
    have hstart := hst.statement_starts
    cases i with
    | nil => exact absurd hstart (by decide)
    | cons t i =>
        rw [List.cons_append, ahead_cons] at hk
        rw [ahead_cons, hk] at hstart
        exact absurd hstart (by decide)
  have hless : rest.length < (i ++ [semi]).length := by
    rw [List.length_append, List.length_singleton]
    omega
  have hpasses : PassesOver (i ++ [semi]) ((some st).toList ++ ss) ([] ++ errors) := by
    refine h.statement hk hless fun behind length before n hn => ?_
    rw [List.append_assoc] at hn ⊢
    rw [List.append_nil]
    exact (hfound behind n hn).recovering ⟨[], length, before, 0⟩
  exact hpasses

/-- The parser comes past a program with balanced braces and a semicolon. If
    no statement takes the semicolon then it is an error. -/
theorem passesOver_balanced (hsemi : semi.kind = .semicolon) {ss : Block} :
    ∀ {i : List Token}, Derives (.statements false) ss i [] → excess i = 0 →
      ∃ errors, PassesOver (i ++ [semi]) ss errors := by
  induction ss with
  | nil =>
      intro i h _
      cases h with
      | finish _ => exact ⟨_, passesOver_semicolon hsemi⟩
  | cons st ss ih =>
      intro i h hbalanced
      -- No statement leaves a brace open, as none of the others could make up for it.
      cases h with
      | @ended _ c _ _ _ m _ hst hc hss =>
          have hle := hst.excess_le
          have hle' := hss.excess_le
          have hlen := hst.length_le
          simp only [excess, hc, Kind.nesting, Phrase.due] at hle hle'
          simp only [Phrase.least, List.length_cons] at hlen
          have hequal : excess (c :: m) = excess i := by
            simp only [excess, hc, Kind.nesting]
            omega
          rcases ih hss (by omega) with ⟨errors, hpasses⟩
          refine ⟨errors, hpasses.found hst ?_ fun behind n hn => ?_⟩
          · rw [List.length_append, List.length_singleton]
            omega
          · rw [List.append_assoc]
            have hfollow : ahead (c :: m ++ semi :: behind) ∉ continuing ∧
                ahead (c :: m ++ semi :: behind) ≠ .elseWord := by
              rw [List.cons_append, ahead_cons, hc]
              decide
            exact (finds_statement hst hequal hfollow hn).ended hc
      | @adjacent _ _ _ _ m _ hst hnext hcont hss =>
          have hle := hst.excess_le
          have hle' := hss.excess_le
          have hlen := hst.length_le
          simp only [excess, Phrase.due] at hle hle'
          simp only [Phrase.least] at hlen
          cases m with
          | nil =>
              -- The last statement, which ended with the text, now ends with the semicolon.
              obtain rfl : ss = [] := by
                cases hss with
                | finish _ => rfl
                | ended h _ _ => exact absurd h.statement_starts (by decide)
                | adjacent h _ _ _ => exact absurd h.statement_starts (by decide)
              have hequal : excess [] = excess i := by
                simp only [excess]
                omega
              refine ⟨[], passesOver_nil.found hst (Nat.zero_le _) fun behind n hn => ?_⟩
              have hfollow : ahead ([] ++ semi :: behind) ∉ continuing ∧
                  ahead ([] ++ semi :: behind) ≠ .elseWord := by
                rw [List.nil_append, ahead_cons, hsemi]
                decide
              exact (finds_statement hst hequal hfollow hn).ended hsemi
          | cons t m =>
              rcases ih hss (by omega) with ⟨errors, hpasses⟩
              refine ⟨errors, hpasses.found hst ?_ fun behind n hn => ?_⟩
              · rw [List.length_append, List.length_singleton]
                omega
              · rw [List.append_assoc]
                have helse : ahead (t :: m) ≠ .elseWord := statements_follow hss
                exact (finds_statement hst (by omega) ⟨hcont, helse⟩ hn).adjacent hnext

end Parser

/-- Behind tokens that the parser comes past, it parses what is left as if
    that was all. -/
theorem parseTokens_append {tokens : List Token} {found : Block} {errors : List ParseError}
    (h : Parser.PassesOver tokens found errors) (behind : List Token) (length : Nat) :
    parseTokens (tokens ++ behind) length =
      ⟨found ++ (parseTokens behind length).program,
        errors ++ (parseTokens behind length).errors⟩ := by
  rcases exists_program behind length with ⟨s, hrun, herrors, -, -⟩
  have hfuel : behind.length + 1 ≤ (tokens ++ behind).length + 1 := by
    rw [List.length_append]
    omega
  rcases h behind length [] _ _ (Nat.lt_succ_self _) (Nat.lt_succ_self _) with ⟨k, hk, hpasses⟩
  -- The errors from before and the additional fuel make no difference to what is left.
  have hfollows := Parser.follows_program (c := ⟨errors, [], length, length⟩)
    (Parser.follows_expression hfuel) ⟨rfl, rfl⟩ hk (.start behind length)
    ⟨rfl, .inl ⟨rfl, rfl⟩⟩
  unfold Parser.Follows at hfollows
  rw [hrun] at hfollows
  have hsame : (ParseState.start behind length).within ⟨errors, [], length, length⟩
      = ⟨behind, length, [] ++ errors, 0⟩ := by
    simp only [ParseState.within, ParseState.start, List.append_nil, List.nil_append]
  rw [hsame] at hfollows
  have hwhole := hpasses _ _ hfollows.1
  change Parser.program _ _ (.start (tokens ++ behind) length) = _ at hwhole
  rw [parseTokens, hwhole, ← herrors]
  rfl

/-- A program in two parts with a semicolon between them is the one part and
    then the other, and its errors are those of the one and then the other.
    The first part, in which the end of input does not occur, has no braces,
    or it has no errors and as many opening braces as closing ones. -/
theorem parseTokens_semicolon {front : List Token} {semi : Token}
    (hfinish : ∀ t ∈ front, t.kind ≠ .finish) (hsemi : semi.kind = .semicolon)
    (h : (∀ t ∈ front, t.kind ≠ .leftBrace ∧ t.kind ≠ .rightBrace) ∨
      (∃ length, (parseTokens front length).errors = []) ∧
        front.countP (fun t => t.kind = .leftBrace) = front.countP (fun t => t.kind = .rightBrace))
    (behind : List Token) (length length' : Nat) :
    (parseTokens (front ++ semi :: behind) length).program =
        (parseTokens (front ++ [semi]) length').program ++ (parseTokens behind length).program ∧
      (parseTokens (front ++ semi :: behind) length).errors =
        (parseTokens (front ++ [semi]) length').errors ++ (parseTokens behind length).errors := by
  obtain ⟨found, errors, hpasses⟩ :
      ∃ found errors, Parser.PassesOver (front ++ [semi]) found errors := by
    rcases h with hbraces | ⟨⟨length₀, herrors⟩, hcount⟩
    · refine Parser.passesOver_segment _ _ (Nat.le_refl _) (fun t ht => ?_)
        (.inl (segment_append hbraces hsemi))
      rcases List.mem_append.mp ht with ht | ht
      · exact hfinish t ht
      · rw [List.mem_singleton.mp ht, hsemi]
        decide
    · have hbalanced : excess front = 0 := by
        rw [excess_eq, hcount]
        exact Int.sub_self _
      exact ⟨_, Parser.passesOver_balanced hsemi (derives_of_parseTokens hfinish herrors) hbalanced⟩
  -- Nothing at all is one of the things that may stand behind the semicolon.
  have hwhole := parseTokens_append hpasses behind length
  have hfront := parseTokens_append hpasses [] length'
  have hempty : parseTokens [] length' = ⟨[], []⟩ := rfl
  rw [List.append_assoc] at hwhole
  rw [List.append_nil, hempty, List.append_nil, List.append_nil] at hfront
  rw [hfront]
  exact ⟨congrArg Parsed.program hwhole, congrArg Parsed.errors hwhole⟩

/-- What is left of `let 1 )`, which is no statement. -/
def brokenTokens : List Token :=
  [⟨.letWord, "let", ⟨0, 3⟩⟩, ⟨.integer, "1", ⟨4, 5⟩⟩, ⟨.rightParen, ")", ⟨6, 7⟩⟩]

/-- A condition without a semicolon behind it. -/
def bracedTokens : List Token :=
  [⟨.ifWord, "if", ⟨0, 2⟩⟩, ⟨.identifier, "x", ⟨3, 4⟩⟩, ⟨.leftBrace, "\x7b", ⟨5, 6⟩⟩,
    ⟨.identifier, "y", ⟨7, 8⟩⟩, ⟨.rightBrace, "\x7d", ⟨9, 10⟩⟩]

/-- What stands behind the semicolon could go on with the statement in front
    of it, and has an error of its own. -/
def laterTokens : List Token :=
  [⟨.minus, "-", ⟨12, 13⟩⟩, ⟨.identifier, "z", ⟨13, 14⟩⟩, ⟨.rightBrace, "\x7d", ⟨15, 16⟩⟩]

/-- The semicolon in front of it. -/
def dividingToken : Token :=
  ⟨.semicolon, ";", ⟨10, 11⟩⟩

theorem parseTokens_semicolon_later :
    (parseTokens (brokenTokens ++ dividingToken :: laterTokens) 16).errors =
        (parseTokens (brokenTokens ++ [dividingToken]) 11).errors
          ++ (parseTokens laterTokens 16).errors ∧
      (parseTokens brokenTokens 7).errors.length = 1 ∧
      (parseTokens (bracedTokens ++ dividingToken :: laterTokens) 16).program =
        (parseTokens (bracedTokens ++ [dividingToken]) 11).program
          ++ (parseTokens laterTokens 16).program ∧
      (parseTokens laterTokens 16).program.length = 1 := by
  have hsemi : dividingToken.kind = .semicolon := rfl
  have hbroken : ∀ t ∈ brokenTokens, t.kind ≠ .finish := by decide
  have hbraced : ∀ t ∈ bracedTokens, t.kind ≠ .finish := by decide
  have hfirst := parseTokens_semicolon hbroken hsemi (.inl (by decide)) laterTokens 16 11
  have hsecond := parseTokens_semicolon hbraced hsemi
    (.inr ⟨⟨10, by decide +kernel⟩, by decide⟩) laterTokens 16 11
  exact ⟨hfirst.2, by decide +kernel, hsecond.1, by decide +kernel⟩

end Monkey
