import Monkey.Proofs.Parsing.Outcome
import Monkey.Proofs.Parsing.Precedence

/-!
# What the Parser Reads is in the Language

From the run of a parser to a derivation.

Each routine of the parser gets one lemma, and all of them have the same form:
where the unread tokens are fewer than the fuel, the routine comes to an end;
if it succeeds then it went forward, and if no error was recorded on the way
then the tokens it consumed derive what it returned. Nothing is said about
what was read when an error was recorded. That is also what makes blocks
possible, whose statements may fail without the block failing.

The routines for single phrases are written for a given parser of inner
expressions. The lemmas follow them: they take it that this parser reads
expressions with a certain room, and `reads_expression` closes the circle by
induction on the fuel.

Precedence climbing does not build trees as the grammar does. The grammar
starts from the loosest tier, whereas the parser starts from a primary
expression and lets operators turn it into ever larger left operands. The
invariant of its loop is `LeftOperand`: what has been read so far belongs to
some tier, the operator ahead binds no tighter than that tier and can
therefore have it to its left, and the tier is tight enough for what was asked
for. A unary expression is where this could break, as a call behind it would
have to go inside; it cannot be ahead, because the operand has taken it.

## Main definitions

* `Parser.Reads`: A parser reads phrases of a kind.
* `Parser.ReadsExpr`: A parser reads expressions of each precedence.
* `Parser.Leaf`: What stands in front of the first operator.
* `Parser.LeftOperand`: What the loop over operators has read so far.

## Theorems

* `Parser.reads_listUpTo`, `Parser.reads_pairs`, `Parser.reads_conditional`
  and the like: The routines for single phrases.
* `Parser.reads_recovering`: A statement never fails for good.
* `Parser.reads_operator`, `Parser.reads_operators`: The loop over operators.
* `Parser.reads_expression`: The parser of expressions.
* `Parser.reads_program`: The parser of programs always succeeds.
* `exists_program`: The run behind `parseTokens`.
-/

namespace Monkey

open Grammar

/-- The state in which a phrase of a kind is refused at the earliest. Some
    phrases consume their first token whatever it is. -/
def Grammar.Phrase.entered : Phrase → ParseState → ParseState
  | expr _, s => s.next
  | statement, s => s.next
  | _, s => s

namespace Parser

/-- A parser reads phrases of a kind where fewer tokens than the given number
    are unread. -/
def Reads (x : Phrase) (room : Nat) (p : Parser x.Tree) : Prop :=
  ∀ s, s.rest.length < room → (p s).Holds
    (fun a s' => s.Leads s' (Derives x a s.rest s'.rest) ∧
      s'.rest.length + x.least ≤ s.rest.length)
    (fun _ s' => (x.entered s).Leads s' True)

/-- A parser for all precedences reads expressions, each up to an operator
    that does not bind tighter. -/
def ReadsExpr (room : Nat) (self : Precedence → Parser Expr) : Prop :=
  ∀ p s, s.rest.length < room → (self p s).Holds
    (fun e s' => s.Leads s' (Derives (.expr p.tier) e s.rest s'.rest) ∧
      s'.rest.length < s.rest.length ∧ ¬p < .ofKind (ahead s'.rest))
    (fun _ s' => s.next.Leads s' True)

variable {room : Nat}

theorem reads_parameter : Reads (.item .parameter) room parameter := by
  intro s _
  simp only [parameter, holds_bind, holds_expect, holds_pure]
  refine ⟨fun hk => ?_, fun _ => .refl trivial⟩
  have hname := ParseState.Leads.token hk (by simp)
  refine ⟨hname.imp fun hrest => ?_, Nat.le_of_eq (s.next_rest_length hk (by simp))⟩
  rw [hrest]
  exact .itemParameter hk

theorem reads_commaTail {x : Item} {p : Parser x.Tree} (hp : Reads (.item x) room p) :
    ∀ n, n ≤ room → Reads (.tail x) n (commaTail p n) := by
  intro n
  induction n with
  | zero =>
      intro _ s hs
      exact absurd hs (Nat.not_lt_zero _)
  | succ n ih =>
      intro hn s hs
      simp only [commaTail, holds_bind, holds_accept, if_true, Bool.false_eq_true, if_false,
        holds_pure]
      refine ⟨fun hk => ?_, fun _ => ⟨.refl .tailEmpty, Nat.le_refl _⟩⟩
      have hcomma := ParseState.Leads.token hk (by simp)
      have hlen := s.next_rest_length hk (by simp)
      -- The comma makes the text shorter, which is what the fuel counts.
      refine (hp s.next (by omega)).mono (fun a s₁ h => ?_) (fun _ s₁ h => hcomma.failed h)
      rcases h with ⟨ha, hless⟩
      simp only [Phrase.least] at hless
      refine (ih (by omega) s₁ (by omega)).mono (fun as s₂ h => ?_)
        (fun _ s₂ h => (hcomma.trans ha).failed h)
      rcases h with ⟨has, hless'⟩
      refine ⟨((hcomma.trans ha).trans has).imp fun h => ?_, ?_⟩
      · rcases h with ⟨⟨hrest, ha⟩, has⟩
        rw [hrest]
        exact .tailItem hk ha has
      · simp only [Phrase.least] at hless' ⊢
        omega

theorem reads_listUpTo {close : Kind} {x : Item} {p : Parser x.Tree}
    (hp : Reads (.item x) room p) (hclose : close ≠ .finish) {n : Nat} (hn : n ≤ room) :
    Reads (.list close x) n (listUpTo close p n) := by
  intro s hs
  simp only [listUpTo, holds_bind, holds_accept, holds_expect, if_true, Bool.false_eq_true,
    if_false, holds_pure]
  refine ⟨fun hk => ?_, fun _ => ?_⟩
  · refine ⟨(ParseState.Leads.token hk hclose).imp fun hrest => ?_,
      Nat.le_of_eq (s.next_rest_length hk hclose)⟩
    rw [hrest]
    exact .listEmpty hk
  · refine (hp s (by omega)).mono (fun a s₁ h => ?_) (fun _ s₁ h => h)
    rcases h with ⟨ha, hless⟩
    simp only [Phrase.least] at hless
    refine (reads_commaTail hp n hn s₁ (by omega)).mono (fun as s₂ h => ?_)
      (fun _ s₂ h => ha.failed h)
    rcases h with ⟨has, hless'⟩
    simp only [Phrase.least] at hless'
    refine ⟨fun hk => ?_, fun _ => ha.failed (has.failed (.refl trivial))⟩
    have hclosing := ParseState.Leads.token hk hclose
    refine ⟨((ha.trans has).trans hclosing).imp fun h => ?_, ?_⟩
    · rcases h with ⟨⟨ha, has⟩, hrest⟩
      rw [hrest] at has
      exact .listItems ha has hk
    · have hnext := hclosing.rest_length_le
      simp only [Phrase.least]
      omega

variable {self : Precedence → Parser Expr}

theorem reads_argument (hself : ReadsExpr room self) :
    Reads (.item .expression) room (self .lowest) :=
  fun s hs => (hself .lowest s hs).mono (fun _ _ h => ⟨h.1.imp .itemExpression, h.2.1⟩)
    (fun _ _ h => (ParseState.Leads.next s).failed h)

/-- A pair behind which the map may end or go on. -/
theorem reads_pair (hself : ReadsExpr room self) (s : ParseState) (hs : s.rest.length < room)
    {next : Expr → Expr → Parser (List (Expr × Expr))} {P : List (Expr × Expr) → ParseState → Prop}
    (hnext : ∀ k v s', s'.rest.length < s.rest.length →
      s.Leads s' (∃ c m, Derives (.expr .equality) k s.rest (c :: m) ∧ c.kind = .colon ∧
        Derives (.expr .equality) v m s'.rest) →
      (next k v s').Holds P fun _ s'' => s.Leads s'' True) :
    ((do
      let k ← self .lowest
      let _ ← expect .colon
      let v ← self .lowest
      next k v) s).Holds P fun _ s' => s.Leads s' True := by
  simp only [holds_bind, holds_expect]
  refine (hself .lowest s hs).mono (fun k s₁ h => ?_)
    (fun _ _ h => (ParseState.Leads.next s).failed h)
  rcases h with ⟨hkey, hless, -⟩
  refine ⟨fun hc => ?_, fun _ => hkey.failed (.refl trivial)⟩
  have hcolon := ParseState.Leads.token hc (by simp)
  have hle := hcolon.rest_length_le
  refine (hself .lowest s₁.next (by omega)).mono (fun v s₂ h => ?_)
    (fun _ s₂ h => hkey.failed (hcolon.failed ((ParseState.Leads.next _).failed h)))
  rcases h with ⟨hvalue, hless₂, -⟩
  refine hnext k v s₂ (by omega) (((hkey.trans hcolon).trans hvalue).imp fun h => ?_)
  rcases h with ⟨⟨hkey, hrest⟩, hvalue⟩
  rw [hrest] at hkey
  exact ⟨s₁.peek, s₁.next.rest, hkey, hc, hvalue⟩

theorem reads_pairs (hself : ReadsExpr room self) :
    ∀ n, n ≤ room → Reads .pairs n (pairsUpToBrace self n) := by
  intro n
  induction n with
  | zero =>
      intro _ s hs
      exact absurd hs (Nat.not_lt_zero _)
  | succ n ih =>
      intro hn s hs
      simp only [pairsUpToBrace]
      rw [holds_bind, holds_accept]
      refine ⟨fun hk => ?_, fun _ => ?_⟩
      · refine ⟨(ParseState.Leads.token hk (by simp)).imp fun hrest => ?_,
          Nat.le_of_eq (s.next_rest_length hk (by simp))⟩
        rw [hrest]
        exact .pairsEmpty hk
      refine reads_pair hself s (by omega) fun k v s₂ hless hpair => ?_
      simp only [holds_bind, holds_expect, holds_peek, holds_ite, holds_pure]
      refine ⟨fun hb => ?_, fun _ => ⟨fun hs => ?_, fun _ => hpair.failed (.refl trivial)⟩⟩
      · -- The closing brace is left to the next round, which does nothing but take it.
        have hlast := s₂.rest_eq_cons hb (by simp)
        refine (ih (by omega) s₂ (by omega)).mono (fun ps s₃ h => ?_)
          (fun _ _ h => hpair.failed h)
        rcases h with ⟨hps, hless₃⟩
        refine ⟨(hpair.trans hps).imp fun h => ?_, ?_⟩
        · rcases h with ⟨⟨c, m, hkey, hc, hvalue⟩, hps⟩
          rw [hlast] at hvalue hps
          rcases hps.pairs_of_brace hb with ⟨rfl, heq⟩
          rw [heq]
          exact .pairsLast hkey hc hvalue hb
        · simp only [Phrase.least] at hless₃ ⊢
          omega
      · have hcomma := ParseState.Leads.token hs (by simp)
        have hle := hcomma.rest_length_le
        refine (ih (by omega) s₂.next (by omega)).mono (fun ps s₃ h => ?_)
          (fun _ _ h => hpair.failed (hcomma.failed h))
        rcases h with ⟨hps, hless₃⟩
        refine ⟨((hpair.trans hcomma).trans hps).imp fun h => ?_, ?_⟩
        · rcases h with ⟨⟨⟨c, m, hkey, hc, hvalue⟩, hrest⟩, hps⟩
          rw [hrest] at hvalue
          exact .pairsMore hkey hc hvalue hs hps
        · simp only [Phrase.least] at hless₃ ⊢
          omega

theorem reads_bareStatement (hself : ReadsExpr room self) (s : ParseState)
    (hs : s.rest.length < room) : (bareStatement self s).Holds
      (fun st s' => s.Leads s' (Derives .statement st s.rest s'.rest) ∧
        s'.rest.length < s.rest.length ∧ ahead s'.rest ∉ continuing)
      (fun _ s' => s.next.Leads s' True) := by
  simp only [bareStatement, holds_bind, holds_peek]
  generalize hk : s.peek.kind = k
  split
  · simp only [holds_bind, holds_take, holds_expect, holds_pure]
    have hword := ParseState.Leads.token hk (by simp)
    have hlen := s.next_rest_length hk (by simp)
    refine ⟨fun hn => ?_, fun _ => .refl trivial⟩
    have hname := ParseState.Leads.token hn (by simp)
    have hle := hname.rest_length_le
    refine ⟨fun ha => ?_, fun _ => hname.failed (.refl trivial)⟩
    have hassign := ParseState.Leads.token ha (by simp)
    have hle' := hassign.rest_length_le
    refine (hself .lowest s.next.next.next (by omega)).mono (fun e s' h => ?_)
      (fun _ s' h => hname.failed (hassign.failed ((ParseState.Leads.next _).failed h)))
    rcases h with ⟨he, hless, hstop⟩
    refine ⟨((hword.trans hname).trans (hassign.trans he)).imp fun h => ?_, by omega,
      not_mem_continuing hstop⟩
    rcases h with ⟨⟨hrest, hrest₁⟩, hrest₂, he⟩
    rw [hrest, hrest₁, hrest₂]
    exact .bind hk hn ha he
  · simp only [holds_bind, holds_take, holds_pure]
    have hword := ParseState.Leads.token hk (by simp)
    have hlen := s.next_rest_length hk (by simp)
    refine (hself .lowest s.next (by omega)).mono (fun e s' h => ?_)
      (fun _ s' h => (ParseState.Leads.next _).failed h)
    rcases h with ⟨he, hless, hstop⟩
    refine ⟨(hword.trans he).imp fun h => ?_, by omega, not_mem_continuing hstop⟩
    rcases h with ⟨hrest, he⟩
    rw [hrest]
    exact .ret hk he
  · simp only [holds_bind, holds_pure]
    exact (hself .lowest s hs).mono
      (fun e s' h => ⟨h.1.imp .expr, h.2.1, not_mem_continuing h.2.2⟩) (fun _ s' h => h)

/-- A statement with its semicolon goes in front of other statements. -/
theorem reads_statement (hself : ReadsExpr room self) (s : ParseState)
    (hs : s.rest.length < room) : (statement self s).Holds
      (fun st s' => s.Leads s' (∀ braced ss o, Derives (.statements braced) ss s'.rest o →
          Derives (.statements braced) (st :: ss : Block) s.rest o) ∧
        s'.rest.length < s.rest.length)
      (fun _ s' => s.next.Leads s' True) := by
  simp only [statement, holds_bind, holds_accept, holds_pure]
  refine (reads_bareStatement hself s hs).mono (fun st s' h => ?_) (fun _ s' h => h)
  rcases h with ⟨hst, hless, hcont⟩
  refine ⟨fun hk => ?_, fun hk => ⟨hst.imp fun hst braced ss o hss => ?_, hless⟩⟩
  · have hsemi := ParseState.Leads.token hk (by simp)
    have hle := hsemi.rest_length_le
    refine ⟨(hst.trans hsemi).imp fun h braced ss o hss => ?_, by omega⟩
    rcases h with ⟨hst, hrest⟩
    rw [hrest] at hst
    exact .ended hst hk hss
  · -- Without a semicolon the grammar wants to know that the expression has ended.
    rw [ParseState.peek_kind] at hk
    exact .adjacent hst hk hcont hss

/-- A statement that may fail is never fatal and always shortens the text. If
    it did fail then an error was recorded, so nothing is known about what
    was read. -/
theorem reads_recovering (hself : ReadsExpr room self) (s : ParseState)
    (hs : s.rest.length < room) (hfinish : s.peek.kind ≠ .finish) :
    (recovering (statement self) s).Holds
      (fun st s' => s.Leads s' (∀ braced ss o, Derives (.statements braced) ss s'.rest o →
          Derives (.statements braced) (st.toList ++ ss : Block) s.rest o) ∧
        s'.rest.length < s.rest.length)
      (fun _ _ => False) := by
  simp only [holds_recovering]
  refine (reads_statement hself s hs).mono (fun st s' h => h) (fun e s' h => ?_)
  have hrecover := h.trans (s'.leads_recover e False)
  have hlen := s.next_rest_length rfl hfinish
  have hle := hrecover.rest_length_le
  exact ⟨((ParseState.Leads.next s).trans hrecover).imp fun h => h.2.2.elim, by omega⟩

theorem reads_statementsUpToBrace (hself : ReadsExpr room self) :
    ∀ n, n ≤ room → Reads (.statements true) n (statementsUpToBrace self n) := by
  intro n
  induction n with
  | zero =>
      intro _ s hs
      exact absurd hs (Nat.not_lt_zero _)
  | succ n ih =>
      intro hn s hs
      simp only [statementsUpToBrace, holds_bind, holds_peek]
      generalize hk : s.peek.kind = k
      split
      · simp only [holds_bind, holds_take, holds_pure]
        have hbrace := ParseState.Leads.token hk (by simp)
        refine ⟨hbrace.imp fun hrest => ?_, hbrace.rest_length_le⟩
        rw [hrest]
        exact .closed hk
      · rw [ParseState.peek_kind] at hk
        exact ⟨.refl (.finish hk), Nat.le_refl _⟩
      · rename_i _ hfinish
        simp only [holds_bind, holds_pure]
        refine (reads_recovering hself s (by omega) (by rw [hk]; exact hfinish)).mono
          (fun st s₁ h => ?_) (fun _ _ h => h.elim)
        rcases h with ⟨hst, hless⟩
        refine (ih (by omega) s₁ (by omega)).mono (fun ss s₂ h => ?_) (fun _ s₂ h => hst.failed h)
        rcases h with ⟨hss, hless₂⟩
        refine ⟨(hst.trans hss).imp fun h => h.1 _ _ _ h.2, ?_⟩
        simp only [Phrase.least] at hless₂ ⊢
        omega

theorem reads_block (hself : ReadsExpr room self) {n : Nat} (hn : n ≤ room) :
    Reads (.statements true) n (block self n) := by
  intro s hs
  simp only [block, holds_inBlock]
  exact (reads_statementsUpToBrace hself n hn s.opened hs).mono
    (fun _ _ h => ⟨h.1.inBlock, h.2⟩) (fun _ _ h => ParseState.Leads.inBlock h)

/-- A block that had to be opened with a brace. -/
theorem reads_braced (hself : ReadsExpr room self) {n : Nat} (hn : n ≤ room) (s : ParseState)
    (hs : s.rest.length < n) {α : Type} {next : Block → Parser α} {P : α → ParseState → Prop}
    (hnext : ∀ ss s', s'.rest.length < s.rest.length →
      s.Leads s' (∃ b m, s.rest = b :: m ∧ b.kind = .leftBrace ∧
        Derives (.statements true) ss m s'.rest) →
      (next ss s').Holds P fun _ s'' => s.Leads s'' True) :
    ((do
      let _ ← expect .leftBrace
      let ss ← block self n
      next ss) s).Holds P fun _ s' => s.Leads s' True := by
  simp only [holds_bind, holds_expect]
  refine ⟨fun hb => ?_, fun _ => .refl trivial⟩
  have hbrace := ParseState.Leads.token hb (by simp)
  have hlen := s.next_rest_length hb (by simp)
  refine (reads_block hself hn s.next (by omega)).mono (fun ss s' h => ?_)
    (fun _ _ h => hbrace.failed h)
  rcases h with ⟨hss, hless⟩
  simp only [Phrase.least] at hless
  exact hnext ss s' (by omega) ((hbrace.trans hss).imp fun h => ⟨s.peek, s.next.rest, h.1, hb, h.2⟩)

/-- A condition behind its first word, with all branches that it has. -/
theorem reads_conditional (hself : ReadsExpr room self) :
    ∀ n, n ≤ room → Reads .conditional n (conditional self n) := by
  intro n
  induction n with
  | zero =>
      intro _ s hs
      exact absurd hs (Nat.not_lt_zero _)
  | succ n ih =>
      intro hn s hs
      simp only [conditional]
      rw [holds_bind]
      refine (hself .lowest s (by omega)).mono (fun test s₁ h => ?_)
        (fun _ _ h => (ParseState.Leads.next s).failed h)
      rcases h with ⟨htest, hless, -⟩
      refine (reads_braced hself (by omega) s₁ (by omega) fun c s₂ hless₂ hc => ?_).mono
        (fun _ _ h => h) (fun _ _ h => htest.failed h)
      rw [holds_bind, holds_accept]
      refine ⟨fun hw => ?_, fun _ => ?_⟩
      · have helse := ParseState.Leads.token hw (by simp)
        have hle := helse.rest_length_le
        simp only [if_true]
        rw [holds_bind, holds_accept]
        refine ⟨fun hw' => ?_, fun _ => ?_⟩
        · -- The second condition stands for a block that holds nothing else.
          have hif := ParseState.Leads.token hw' (by simp)
          have hle' := hif.rest_length_le
          rw [if_pos rfl, holds_bind]
          refine (ih (by omega) s₂.next.next (by omega)).mono (fun nested s₃ h => ?_)
            (fun _ _ h => hc.failed (helse.failed (hif.failed h)))
          rcases h with ⟨hnested, hless₃⟩
          refine ⟨((htest.trans hc).trans ((helse.trans hif).trans hnested)).imp fun h => ?_, ?_⟩
          · rcases h with ⟨⟨htest, b, m, hrest, hb, hc⟩, ⟨hrest₂, hrest₃⟩, hnested⟩
            rw [hrest] at htest
            rw [hrest₂, hrest₃] at hc
            exact .elseIf htest hb hc hw hw' hnested
          · simp only [Phrase.least] at hless₃ ⊢
            omega
        · rw [if_neg Bool.false_ne_true]
          refine (reads_braced hself (by omega) s₂.next (by omega) fun d s₃ hless₃ hd => ?_).mono
            (fun _ _ h => h) (fun _ _ h => hc.failed (helse.failed h))
          refine ⟨((htest.trans hc).trans (helse.trans hd)).imp fun h => ?_, ?_⟩
          · rcases h with ⟨⟨htest, b, m, hrest, hb, hc⟩, hrest₂, b', m', hrest₃, hb', hd⟩
            rw [hrest] at htest
            rw [hrest₂, hrest₃] at hc
            exact .elseBlock htest hb hc hw hb' hd
          · simp only [Phrase.least]
            omega
      · refine ⟨(htest.trans hc).imp fun h => ?_, ?_⟩
        · rcases h with ⟨htest, b, m, hrest, hb, hc⟩
          rw [hrest] at htest
          exact .noElse htest hb hc
        · simp only [Phrase.least]
          omega

/-- A function literal behind its first word. -/
theorem reads_function (hself : ReadsExpr room self) {n : Nat} (hn : n ≤ room) (s : ParseState)
    (hs : s.rest.length < n) : (function self n s).Holds
      (fun e s' => s.Leads s'
        (∀ w : Token, w.kind = .fnWord → Derives (.expr .primary) e (w :: s.rest) s'.rest))
      (fun _ s' => s.Leads s' True) := by
  simp only [function]
  rw [holds_bind, holds_expect]
  refine ⟨fun hl => ?_, fun _ => .refl trivial⟩
  have hopen := ParseState.Leads.token hl (by simp)
  have hle := hopen.rest_length_le
  rw [holds_bind]
  refine (reads_listUpTo reads_parameter (by decide) hn s.next (by omega)).mono
    (fun ps s₁ h => ?_) (fun _ _ h => hopen.failed h)
  rcases h with ⟨hps, hless⟩
  simp only [Phrase.least] at hless
  refine (reads_braced hself hn s₁ (by omega) fun body s₂ _ hbody => ?_).mono
    (fun _ _ h => h) (fun _ _ h => hopen.failed (hps.failed h))
  refine ((hopen.trans hps).trans hbody).imp fun h w hw => ?_
  rcases h with ⟨⟨hrest, hps⟩, b, m, hrest₁, hb, hbody⟩
  rw [hrest₁] at hps
  rw [hrest]
  exact .fn hw hl hps hb hbody

/-- An expression in parentheses behind the opening one. -/
theorem reads_grouped (hself : ReadsExpr room self) (s : ParseState) (hs : s.rest.length < room) :
    (grouped self s).Holds
      (fun e s' => s.Leads s'
        (∀ l : Token, l.kind = .leftParen → Derives (.expr .primary) e (l :: s.rest) s'.rest))
      (fun _ s' => s.Leads s' True) := by
  simp only [grouped, holds_bind, holds_expect, holds_pure]
  refine (hself .lowest s hs).mono (fun e s₁ h => ?_)
    (fun _ _ h => (ParseState.Leads.next s).failed h)
  rcases h with ⟨he, -, -⟩
  refine ⟨fun hr => ?_, fun _ => he.failed (.refl trivial)⟩
  have hclose := ParseState.Leads.token hr (by simp)
  refine (he.trans hclose).imp fun h l hl => ?_
  rcases h with ⟨he, hrest⟩
  rw [hrest] at he
  exact .grouped hl he hr

/-- What stands in front of the first operator: a primary expression, or a
    unary one that no call and no index follows. -/
def Leaf (e : Expr) (i o : List Token) : Prop :=
  Derives (.expr .primary) e i o ∨
    Derives (.expr .unary) e i o ∧ ¬Precedence.unary < .ofKind (ahead o)

/-- The first token of an operand belongs to it. -/
theorem leads_leaf {s s' : ParseState} {e : Expr} {k : Kind} (hk : s.peek.kind = k)
    (hfinish : k ≠ .finish) (h : s.next.Leads s' (Leaf e (s.peek :: s.next.rest) s'.rest)) :
    s.Leads s' (Leaf e s.rest s'.rest) ∧ s'.rest.length < s.rest.length := by
  have hlen := s.next_rest_length hk hfinish
  have hle := h.rest_length_le
  refine ⟨((ParseState.Leads.token hk hfinish).trans h).imp fun h => ?_, by omega⟩
  rcases h with ⟨hrest, hleaf⟩
  rw [hrest]
  exact hleaf

theorem reads_operand (hself : ReadsExpr room self) (s : ParseState)
    (hs : s.rest.length < room + 1) : (operand self room s).Holds
      (fun e s' => s.Leads s' (Leaf e s.rest s'.rest) ∧ s'.rest.length < s.rest.length)
      (fun _ s' => s.next.Leads s' True) := by
  simp only [operand, holds_bind, holds_take]
  -- Whatever is read behind the first token is read with one token less.
  have hroom : s.peek.kind ≠ .finish → s.next.rest.length < room := by
    intro hfinish
    have hlen := s.next_rest_length rfl hfinish
    omega
  generalize hk : s.peek.kind = k at hroom
  split
  case h_1 => exact leads_leaf hk (by simp) (.refl (.inl (.ident hk)))
  case h_2 =>
      unfold integer
      cases hn : Text.readInteger? s.peek.literal with
      | none => exact .refl trivial
      | some n => exact leads_leaf hk (by simp) (.refl (.inl (.int hk hn)))
  case h_3 => exact leads_leaf hk (by simp) (.refl (.inl (.str hk)))
  case h_4 => exact leads_leaf hk (by simp) (.refl (.inl (.trueWord hk)))
  case h_5 => exact leads_leaf hk (by simp) (.refl (.inl (.falseWord hk)))
  case h_6 | h_7 =>
      simp only [holds_bind, holds_pure]
      refine (hself .unary s.next (hroom (by simp))).mono (fun e s' h => ?_)
        (fun _ _ h => (ParseState.Leads.next _).failed h)
      rcases h with ⟨he, -, hstop⟩
      -- Where the operand stopped, no call and no index is ahead of the whole either.
      refine leads_leaf hk (by simp) (he.imp fun he => .inr ⟨?_, hstop⟩)
      rw [← hk]
      exact .unary (by simp only [hk, true_or, or_true]) he
  case h_8 =>
      exact (reads_grouped hself s.next (hroom (by simp))).mono
        (fun e s' h => leads_leaf hk (by simp) (h.imp fun h => .inl (h s.peek hk)))
        (fun _ _ h => h)
  case h_9 =>
      exact (reads_conditional hself room (Nat.le_refl _) s.next (hroom (by simp))).mono
        (fun e s' h => leads_leaf hk (by simp) (h.1.imp fun h => .inl (.cond hk h)))
        (fun _ _ h => h)
  case h_10 =>
      exact (reads_function hself (Nat.le_refl _) s.next (hroom (by simp))).mono
        (fun e s' h => leads_leaf hk (by simp) (h.imp fun h => .inl (h s.peek hk)))
        (fun _ _ h => h)
  case h_11 =>
      simp only [holds_bind, holds_pure]
      exact (reads_listUpTo (reads_argument hself) (by decide) (Nat.le_refl _) s.next
        (hroom (by simp))).mono
        (fun es s' h => leads_leaf hk (by simp) (h.1.imp fun h => .inl (.array hk h)))
        (fun _ _ h => h)
  case h_12 =>
      simp only [holds_bind, holds_pure]
      exact (reads_pairs hself room (Nat.le_refl _) s.next (hroom (by simp))).mono
        (fun ps s' h => leads_leaf hk (by simp) (h.1.imp fun h => .inl (.map hk h)))
        (fun _ _ h => h)
  case h_13 => exact .refl trivial

/-- The tokens in front of `m` are an expression, and the operator ahead can
    have it for its left operand, like every operator that binds tighter than
    `p` and is met later. -/
def LeftOperand (p : Precedence) (e : Expr) (i m : List Token) : Prop :=
  ∃ tier : Tier, Derives (.expr tier) e i m ∧ ¬tier.binding < .ofKind (ahead m) ∧
    p.tier.level ≤ tier.level

namespace LeftOperand

variable {p : Precedence} {e : Expr} {i m : List Token}

theorem of_leaf (h : Leaf e i m) : LeftOperand p e i m := by
  rcases h with h | ⟨h, hstop⟩
  · refine ⟨.primary, h, ?_, ?_⟩
    · cases ahead m <;> decide
    · cases p <;> decide
  · exact ⟨.unary, h, hstop, by cases p <;> decide⟩

/-- Nothing binds tighter than a call, so a call or an index can stand to the
    left of whatever is ahead. -/
theorem of_application (h : Derives (.expr .application) e i m) : LeftOperand p e i m :=
  ⟨.application, h, by cases ahead m <;> decide, by cases p <;> decide⟩

/-- What stands to the left of an operator of a tier is of this tier, however
    tight it was read. -/
theorem lower (h : LeftOperand p e i m) {t : Tier} (ht : t ≠ .primary)
    (hbinding : t.binding = .ofKind (ahead m)) : Derives (.expr t) e i m := by
  rcases h with ⟨tier, he, hstop, -⟩
  rw [← hbinding] at hstop
  exact he.lower (level_le_of_binding ht hstop)

end LeftOperand

/-- An operator with what stands behind it turns one left operand into the
    next one. -/
theorem reads_operator (hself : ReadsExpr room self) {p : Precedence} {left : Expr}
    (s : ParseState) (hs : s.rest.length < room) (hp : p < .ofKind s.peek.kind) :
    (operator self room s.peek left s.next).Holds
      (fun e s' => s.Leads s' (∀ i, LeftOperand p left i s.rest → LeftOperand p e i s'.rest) ∧
        s'.rest.length < s.rest.length)
      (fun _ s' => s.Leads s' True) := by
  have hfinish : s.peek.kind ≠ .finish := by
    intro hk
    rw [hk] at hp
    exact Nat.not_lt_zero _ hp
  have hlen := s.next_rest_length rfl hfinish
  have htoken := ParseState.Leads.token rfl hfinish
  have hahead : ahead s.rest = s.peek.kind := s.peek_kind.symm
  unfold operator
  generalize hk : s.peek.kind = k at hp hahead
  split
  · simp only [holds_bind, holds_pure]
    refine (reads_listUpTo (reads_argument hself) (by decide) (Nat.le_refl _) s.next
      (by omega)).mono (fun args s' h => ?_) (fun _ _ h => htoken.failed h)
    rcases h with ⟨hargs, hless⟩
    simp only [Phrase.least] at hless
    refine ⟨(htoken.trans hargs).imp fun h i hleft => ?_, by omega⟩
    rcases h with ⟨hrest, hargs⟩
    have hcallee := hleft.lower (t := .application) (by decide) (by rw [hahead]; rfl)
    rw [hrest] at hcallee
    exact .of_application (.call hcallee hk hargs)
  · simp only [holds_bind, holds_expect, holds_pure]
    refine (hself .lowest s.next (by omega)).mono (fun key s₁ h => ?_)
      (fun _ _ h => htoken.failed ((ParseState.Leads.next _).failed h))
    rcases h with ⟨hkey, hless, -⟩
    refine ⟨fun hr => ?_, fun _ => htoken.failed (hkey.failed (.refl trivial))⟩
    have hclose := ParseState.Leads.token hr (by simp)
    have hle := hclose.rest_length_le
    refine ⟨((htoken.trans hkey).trans hclose).imp fun h i hleft => ?_, by omega⟩
    rcases h with ⟨⟨hrest, hkey⟩, hrest₁⟩
    have hbase := hleft.lower (t := .application) (by decide) (by rw [hahead]; rfl)
    rw [hrest] at hbase
    rw [hrest₁] at hkey
    exact .of_application (.index hbase hk hkey hr)
  · rename_i hl hb
    rcases exists_tier hp hl hb with ⟨tier, hmem, hle⟩
    rcases binding_of_mem hmem with ⟨hbinding, htier⟩
    have hprimary : tier ≠ .primary := by
      intro heq
      rw [heq] at hmem
      exact List.not_mem_nil hmem
    simp only [holds_bind, holds_pure]
    refine (hself (.ofKind k) s.next (by omega)).mono (fun right s' h => ?_)
      (fun _ _ h => htoken.failed ((ParseState.Leads.next _).failed h))
    rcases h with ⟨hright, hless, hstop⟩
    refine ⟨(htoken.trans hright).imp fun h i hleft => ?_, by omega⟩
    rcases h with ⟨hrest, hright⟩
    have hleft := hleft.lower hprimary (by rw [hahead]; exact hbinding)
    rw [hrest] at hleft
    rw [htier] at hright
    -- The operator ahead now stopped the right operand, so the whole can stand to its left.
    refine ⟨tier, ?_, by rw [hbinding]; exact hstop, hle⟩
    rw [← hk] at hmem ⊢
    exact .binary hleft hmem hright

theorem reads_operators (hself : ReadsExpr room self) (p : Precedence) :
    ∀ n, n ≤ room → ∀ (left : Expr) (s : ParseState), s.rest.length < n →
      (operators self room p n left s).Holds
        (fun e s' => s.Leads s'
            (∀ i, LeftOperand p left i s.rest → Derives (.expr p.tier) e i s'.rest) ∧
          ¬p < .ofKind (ahead s'.rest))
        (fun _ s' => s.Leads s' True) := by
  intro n
  induction n with
  | zero =>
      intro _ left s hs
      exact absurd hs (Nat.not_lt_zero _)
  | succ n ih =>
      intro hn left s hs
      simp only [operators, holds_bind, holds_peek, holds_take, holds_ite, holds_pure]
      refine ⟨fun hp => ?_, fun hp => ⟨.refl fun i h => ?_, ?_⟩⟩
      · refine (reads_operator hself s (by omega) hp).mono (fun longer s₁ h => ?_)
          (fun _ _ h => h)
        rcases h with ⟨h₁, hless⟩
        refine (ih (by omega) longer s₁ (by omega)).mono (fun e s₂ h => ?_)
          (fun _ _ h => h₁.failed h)
        exact ⟨(h₁.trans h.1).imp fun h i hi => h.2 i (h.1 i hi), h.2⟩
      · rcases h with ⟨tier, he, -, hle⟩
        exact he.lower hle
      · rw [← ParseState.peek_kind]
        exact hp

theorem reads_expression : ∀ n, ReadsExpr n (expression n) := by
  intro n
  induction n with
  | zero =>
      intro p s hs
      exact absurd hs (Nat.not_lt_zero _)
  | succ n ih =>
      intro p s hs
      simp only [expression, holds_bind]
      refine (reads_operand ih s hs).mono (fun left s₁ h => ?_) (fun _ _ h => h)
      rcases h with ⟨h₁, hless⟩
      refine (reads_operators ih p n (Nat.le_refl _) left s₁ (by omega)).mono
        (fun e s₂ h => ?_) (fun _ s₂ h => ?_)
      · rcases h with ⟨h₂, hstop⟩
        have hle := h₂.rest_length_le
        exact ⟨(h₁.trans h₂).imp fun h => h.2 _ (.of_leaf h.1), by omega, hstop⟩
      · exact (h₁.behind_next hless).failed h

theorem reads_program (hself : ReadsExpr room self) :
    ∀ n, n ≤ room → ∀ s : ParseState, s.rest.length < n → (program self n s).Holds
      (fun ss s' => s.Leads s' (Derives (.statements false) ss s.rest s'.rest) ∧
        ahead s'.rest = .finish)
      (fun _ _ => False) := by
  intro n
  induction n with
  | zero =>
      intro _ s hs
      exact absurd hs (Nat.not_lt_zero _)
  | succ n ih =>
      intro hn s hs
      simp only [program, holds_bind, holds_peek, holds_ite, holds_pure]
      refine ⟨fun hk => ?_, fun hk => ?_⟩
      · rw [ParseState.peek_kind] at hk
        exact ⟨.refl (.finish hk), hk⟩
      · -- Every round consumes a token, so the fuel outlasts the text.
        refine (reads_recovering hself s (by omega) hk).mono (fun st s₁ h => ?_) (fun _ _ h => h)
        rcases h with ⟨hst, hless⟩
        refine (ih (by omega) s₁ (by omega)).mono (fun ss s₂ h => ?_) (fun _ _ h => h)
        exact ⟨(hst.trans h.1).imp fun h => h.1 _ _ _ h.2, h.2⟩

end Parser

/-- The run that comes to the program and the errors in some tokens. -/
theorem exists_program (tokens : List Token) (length : Nat) :
    ∃ s, Parser.program (Parser.expression (tokens.length + 1)) (tokens.length + 1)
        (.start tokens length) = .ok (parseTokens tokens length).program s ∧
      s.errors = (parseTokens tokens length).errors ∧
      (ParseState.start tokens length).Leads s
        (Derives (.statements false) (parseTokens tokens length).program tokens s.rest) ∧
      ahead s.rest = .finish := by
  have hreads := Parser.reads_program (Parser.reads_expression (tokens.length + 1))
    (tokens.length + 1) (Nat.le_refl _) (.start tokens length) (Nat.lt_succ_self _)
  unfold parseTokens
  simp only
  generalize Parser.program _ _ _ = outcome at hreads ⊢
  cases outcome with
  | ok program s => exact ⟨s, rfl, rfl, hreads⟩
  | failed error s => exact hreads.elim
  | exhausted => exact hreads.elim

end Monkey
