import Monkey.Proofs.Parsing.Outcome
import Monkey.Proofs.Parsing.Precedence

/-!
# Parsers Side by Side

One pass over the routines, for whatever is to be known of two runs.

Much that can be said of a parser compares two runs of it: on the same tokens
with more of them behind, with other errors in front, inside a block and
outside of it. Or it says of one run what holds between any two tokens, and
then the second run is the first one over again. The routines are the same in
all of this. What differs is which states belong together, and how they come
apart where a run fails.

A `Pairing` says just that, and `Pairing.Kept` is what has to be shown of it:
how it fares with each way to look at a token, to consume one, to fail and to
recover. No routine occurs there. Everything else follows once and for all,
the fuel included, of which the second run may have more.

A run may have come to the end of its tokens where the other one has a closing
brace ahead. Nothing can be told from that as long as nobody asks for closing
braces, and they are asked for only behind an opening one. The one place where
the two differ is where an expression should start: both refuse the token, and
of the two only the brace can be consumed.

## Main definitions

* `Pairing`: Which states belong together.
* `Pairing.Kept`: What a pairing has to obey.
* `Parser.Pairs`: Two parsers that keep to a pairing.

## Theorems

* `Parser.Pairs.bind`, `Parser.pairs_accept` and the like: Ways to build a
  parser.
* `Parser.pairs_operand`, `Parser.pairs_operators` and the like: The routines.
* `Parser.pairs_recovering`: Statements.
* `Parser.pairs_program`: Programs.
* `Parser.pairs_expression`: Expressions.
-/

namespace Monkey

/-- Which states of two runs belong together. -/
structure Pairing where
  /-- States between two tokens. -/
  meets : ParseState → ParseState → Prop
  /-- States behind a statement. -/
  ended : ParseState → ParseState → Prop
  /-- How the runs fail. -/
  fails : ParseError → ParseState → ParseError → ParseState → Prop
  /-- Whether braces may occur in what is read. -/
  braced : Prop

namespace Pairing

/-- The same token is ahead in both runs, or the first one is at its end and
    the second one in front of a closing brace. -/
def Alike (R : Pairing) (t u : Token) : Prop :=
  u = t ∨ t.kind = .finish ∧ u.kind = .rightBrace ∧ ¬R.braced

/-- Whatever is done with the next token in both runs, the states belong
    together again. -/
structure Kept (R : Pairing) : Prop where
  peek : ∀ {s t}, R.meets s t → R.Alike s.peek t.peek
  brace : ∀ {s t}, R.meets s t → s.peek.kind = .leftBrace → R.braced
  /-- A token is consumed that does not end a statement. -/
  next : ∀ {s t}, R.meets s t → t.peek = s.peek → s.peek.kind ≠ .semicolon →
    s.peek.kind ≠ .finish → R.meets s.next t.next
  /-- A statement ends with a semicolon. -/
  semicolon : ∀ {s t}, R.meets s t → t.peek = s.peek → s.peek.kind = .semicolon →
    R.ended s.next t.next
  /-- A statement ends without one. -/
  still : ∀ {s t}, R.meets s t → R.ended s t
  expected : ∀ {s t k}, R.meets s t → s.peek.kind ≠ k →
    R.fails (.expected k s.peek) s (.expected k t.peek) t
  unexpected : ∀ {s t}, R.meets s t → s.peek.kind ∉ Grammar.starting →
    R.fails (.unexpected s.peek) s.next (.unexpected t.peek) t.next
  outOfRange : ∀ {s t}, R.meets s t → t.peek = s.peek → s.peek.kind = .integer →
    R.fails (.outOfRange s.peek) s.next (.outOfRange s.peek) t.next
  recover : ∀ {e s f t}, R.fails e s f t → R.ended (s.recover e) (t.recover f)
  opened : ∀ {s t}, R.braced → R.meets s t → R.meets s.opened t.opened
  closed : ∀ {s t}, R.braced → R.meets s t → R.meets s.closed t.closed
  fails_closed : ∀ {e s f t}, R.braced → R.fails e s f t → R.fails e s.closed f t.closed
  /-- A block goes on behind a statement. -/
  within : ∀ {s t}, R.braced → R.ended s t → s.peek.kind ≠ .rightBrace → R.meets s t
  /-- A block ends with its brace. -/
  ends : ∀ {s t}, R.braced → R.ended s t → s.peek.kind = .rightBrace →
    t.peek = s.peek ∧ R.meets s.next t.next

end Pairing

/-- Two runs end alike, and if they succeed then with the same value and in
    states that belong together. Nothing is said if the first one runs out of
    fuel. -/
inductive Outcome.Pairs {α : Type} (R : Pairing) (P : ParseState → ParseState → Prop) :
    Outcome α → Outcome α → Prop where
  | ok {a : α} {s t : ParseState} (h : P s t) : Pairs R P (.ok a s) (.ok a t)
  | failed {e f : ParseError} {s t : ParseState} (h : R.fails e s f t) :
    Pairs R P (.failed e s) (.failed f t)
  | exhausted {second : Outcome α} : Pairs R P .exhausted second

namespace Parser

variable {α β : Type} {R : Pairing} {P Q : ParseState → ParseState → Prop} {s t : ParseState}

/-- Two parsers that are run from two states end alike. -/
def Pairs (R : Pairing) (P : ParseState → ParseState → Prop) (s t : ParseState)
    (p p' : Parser α) : Prop :=
  (p s).Pairs R P (p' t)

theorem pairs_pure {a : α} (h : P s t) : Pairs R P s t (pure a) (pure a) :=
  .ok h

theorem pairs_exhausted {p' : Parser α} : Pairs R P s t exhausted p' :=
  .exhausted

theorem Pairs.bind {p p' : Parser α} {f f' : α → Parser β} (hp : Pairs R P s t p p')
    (hf : ∀ a s' t', P s' t' → Pairs R Q s' t' (f a) (f' a)) :
    Pairs R Q s t (p >>= f) (p' >>= f') := by
  unfold Pairs at hp ⊢
  simp only [Bind.bind]
  generalize p s = first, p' t = second at hp ⊢
  cases hp with
  | ok h => exact hf _ _ _ h
  | failed h => exact .failed h
  | exhausted => exact .exhausted

/-- Each of the two looks at its next token. -/
theorem pairs_peek {f f' : Token → Parser α} (h : Pairs R P s t (f s.peek) (f' t.peek)) :
    Pairs R P s t (peek >>= f) (peek >>= f') :=
  h

/-- Each of the two consumes its next token. -/
theorem pairs_take {f f' : Token → Parser α}
    (h : Pairs R P s.next t.next (f s.peek) (f' t.peek)) :
    Pairs R P s t (take >>= f) (take >>= f') :=
  h

/-- Two parsers keep the states of two runs together. -/
def Meeting (R : Pairing) (p p' : Parser α) : Prop :=
  ∀ s t, R.meets s t → Pairs R R.meets s t p p'

section

variable (hR : R.Kept)

include hR

/-- Both runs have a token of some kind ahead or none of them, if it is a kind
    that they can ask for. -/
theorem kind_iff (hst : R.meets s t) {k : Kind} (hk : k ≠ .finish)
    (hbrace : k ≠ .rightBrace ∨ R.braced) :
    (s.peek.kind = k ∧ t.peek = s.peek) ∨ (s.peek.kind ≠ k ∧ t.peek.kind ≠ k) := by
  rcases hR.peek hst with heq | ⟨hs, ht, hbraced⟩
  · by_cases h : s.peek.kind = k
    · exact .inl ⟨h, heq⟩
    · exact .inr ⟨h, heq ▸ h⟩
  · have hne := hbrace.resolve_right hbraced
    exact .inr ⟨fun h => hk (h.symm.trans hs), fun h => hne (h.symm.trans ht)⟩

theorem pairs_accept (hst : R.meets s t) {k : Kind} (hk : k ≠ .semicolon ∧ k ≠ .finish)
    (hbrace : k ≠ .rightBrace ∨ R.braced) : Pairs R R.meets s t (accept k) (accept k) := by
  unfold Pairs accept
  rcases kind_iff hR hst hk.2 hbrace with ⟨hs, heq⟩ | ⟨hs, ht⟩
  · rw [if_pos hs, if_pos (heq ▸ hs)]
    exact .ok (hR.next hst heq (hs ▸ hk.1) (hs ▸ hk.2))
  · rw [if_neg hs, if_neg ht]
    exact .ok hst

theorem pairs_semicolon (hst : R.meets s t) :
    Pairs R R.ended s t (accept .semicolon) (accept .semicolon) := by
  unfold Pairs accept
  rcases kind_iff (k := .semicolon) hR hst (by decide) (.inl (by decide)) with
    ⟨hs, heq⟩ | ⟨hs, ht⟩
  · rw [if_pos hs, if_pos (heq ▸ hs)]
    exact .ok (hR.semicolon hst heq hs)
  · rw [if_neg hs, if_neg ht]
    exact .ok (hR.still hst)

theorem pairs_expect (hst : R.meets s t) {k : Kind}
    (hk : k ≠ .semicolon ∧ k ≠ .finish ∧ k ≠ .rightBrace) :
    Pairs R (fun s' t' => R.meets s' t' ∧ (k = .leftBrace → R.braced)) s t
      (expect k) (expect k) := by
  unfold Pairs expect
  rcases kind_iff hR hst hk.2.1 (.inl hk.2.2) with ⟨hs, heq⟩ | ⟨hs, ht⟩
  · rw [if_pos hs, if_pos (heq ▸ hs), heq]
    exact .ok ⟨hR.next hst heq (hs ▸ hk.1) (hs ▸ hk.2.1), fun h => hR.brace hst (hs.trans h)⟩
  · rw [if_neg hs, if_neg ht]
    exact .failed (hR.expected hst hs)

theorem Pairs.inBlock (hbraced : R.braced) {p p' : Parser α}
    (h : Pairs R R.meets s.opened t.opened p p') :
    Pairs R R.meets s t (inBlock p) (inBlock p') := by
  unfold Pairs ParseState.opened at h
  unfold Pairs Parser.inBlock
  generalize p _ = first, p' _ = second at h ⊢
  cases h with
  | ok h => exact .ok (hR.closed hbraced h)
  | failed h => exact .failed (hR.fails_closed hbraced h)
  | exhausted => exact .exhausted

/-- A statement that may fail. -/
theorem Pairs.recovering {p p' : Parser α} (h : Pairs R R.ended s t p p') :
    Pairs R R.ended s t (recovering p) (recovering p') := by
  unfold Pairs Parser.recovering at *
  generalize p s = first, p' t = second at h ⊢
  cases h with
  | ok h => exact .ok h
  | failed h => exact .ok (hR.recover h)
  | exhausted => exact .exhausted

theorem pairs_commaTail {item item' : Parser α} (hitem : Meeting R item item') :
    ∀ {n n' : Nat}, n ≤ n' → Meeting R (commaTail item n) (commaTail item' n') := by
  intro n
  induction n with
  | zero => exact fun _ _ _ _ => pairs_exhausted
  | succ n ih =>
      intro n' hn s t hst
      obtain ⟨n', rfl⟩ : ∃ l, n' = l + 1 := ⟨n' - 1, by omega⟩
      refine (pairs_accept hR hst (by decide) (.inl (by decide))).bind
        fun more s₁ t₁ h₁ => ?_
      split
      · refine (hitem s₁ t₁ h₁).bind fun x s₂ t₂ h₂ => ?_
        exact (ih (by omega) s₂ t₂ h₂).bind fun xs s₃ t₃ h₃ => pairs_pure h₃
      · exact pairs_pure h₁

theorem pairs_listUpTo {item item' : Parser α} (hitem : Meeting R item item') {close : Kind}
    (hclose : close ≠ .semicolon ∧ close ≠ .finish ∧ close ≠ .rightBrace) {n n' : Nat}
    (hn : n ≤ n') : Meeting R (listUpTo close item n) (listUpTo close item' n') := by
  intro s t hst
  refine (pairs_accept hR hst ⟨hclose.1, hclose.2.1⟩ (.inl hclose.2.2)).bind
    fun empty s₁ t₁ h₁ => ?_
  split
  · exact pairs_pure h₁
  · refine (hitem s₁ t₁ h₁).bind fun x s₂ t₂ h₂ => ?_
    refine (pairs_commaTail hR hitem hn s₂ t₂ h₂).bind fun xs s₃ t₃ h₃ => ?_
    exact (pairs_expect hR h₃ hclose).bind fun _ s₄ t₄ h₄ => pairs_pure h₄.1

theorem pairs_parameter : Meeting R parameter parameter :=
  fun _ _ hst => (pairs_expect hR hst (by decide)).bind
    fun _ _ _ h₁ => pairs_pure h₁.1

/-- An integer literal, which has just been consumed. -/
theorem pairs_integer (hst : R.meets s t) (heq : t.peek = s.peek)
    (hk : s.peek.kind = .integer) :
    Pairs R R.meets s.next t.next (integer s.peek) (integer s.peek) := by
  unfold integer
  cases Text.readInteger? s.peek.literal with
  | some value => exact pairs_pure (hR.next hst heq (by rw [hk]; decide) (by rw [hk]; decide))
  | none => exact .failed (hR.outOfRange hst heq hk)

variable {self self' : Precedence → Parser Expr} (hself : ∀ p, Meeting R (self p) (self' p))

include hself

/-- The pairs of a map. There is a brace in front of them. -/
theorem pairs_pairs (hbraced : R.braced) : ∀ {n n' : Nat}, n ≤ n' →
    Meeting R (pairsUpToBrace self n) (pairsUpToBrace self' n') := by
  intro n
  induction n with
  | zero => exact fun _ _ _ _ => pairs_exhausted
  | succ n ih =>
      intro n' hn s t hst
      obtain ⟨n', rfl⟩ : ∃ l, n' = l + 1 := ⟨n' - 1, by omega⟩
      refine (pairs_accept hR hst (by decide) (.inr hbraced)).bind
        fun empty s₁ t₁ h₁ => ?_
      split
      · exact pairs_pure h₁
      refine (hself .lowest s₁ t₁ h₁).bind fun key s₂ t₂ h₂ => ?_
      refine (pairs_expect hR h₂ (by decide)).bind fun _ s₃ t₃ h₃ => ?_
      refine (hself .lowest s₃ t₃ h₃.1).bind fun value s₄ t₄ h₄ => ?_
      -- With braces about, the same token is ahead in both runs.
      have heq : t₄.peek = s₄.peek := (hR.peek h₄).resolve_right fun h => h.2.2 hbraced
      change (ite _ _ _ : Parser _) s₄ |>.Pairs R R.meets ((ite _ _ _ : Parser _) t₄)
      rw [heq]
      by_cases hk : s₄.peek.kind = .rightBrace
      · rw [if_pos hk, if_pos hk]
        exact (ih (by omega) s₄ t₄ h₄).bind fun pairs s₅ t₅ h₅ => pairs_pure h₅
      · rw [if_neg hk, if_neg hk]
        refine (pairs_expect hR h₄ (by decide)).bind fun _ s₅ t₅ h₅ => ?_
        exact (ih (by omega) s₅ t₅ h₅.1).bind fun pairs s₆ t₆ h₆ => pairs_pure h₆

/-- A statement without its semicolon. -/
theorem pairs_bareStatement : Meeting R (bareStatement self) (bareStatement self') := by
  intro s t hst
  have hvalue : Pairs R R.meets s t (self .lowest >>= fun value => pure (Stmt.expr value))
      (self' .lowest >>= fun value => pure (Stmt.expr value)) :=
    (hself .lowest s t hst).bind fun value s₁ t₁ h₁ => pairs_pure h₁
  refine pairs_peek ?_
  rcases hR.peek hst with heq | ⟨hs, ht, -⟩
  · rw [heq]
    split
    · rename_i hk
      have h₁ := hR.next hst heq (by rw [hk]; decide) (by rw [hk]; decide)
      refine pairs_take ?_
      refine (pairs_expect hR h₁ (by decide)).bind
        fun name s₂ t₂ h₂ => ?_
      refine (pairs_expect hR h₂.1 (by decide)).bind
        fun _ s₃ t₃ h₃ => ?_
      exact (hself .lowest s₃ t₃ h₃.1).bind fun value s₄ t₄ h₄ => pairs_pure h₄
    · rename_i hk
      have h₁ := hR.next hst heq (by rw [hk]; decide) (by rw [hk]; decide)
      exact pairs_take ((hself .lowest _ _ h₁).bind fun value s₂ t₂ h₂ => pairs_pure h₂)
    · exact hvalue
  · -- Neither the end nor a brace starts a statement of its own kind.
    simp only [hs, ht]
    exact hvalue

/-- A statement that may fail. -/
theorem pairs_recovering (hst : R.meets s t) :
    Pairs R R.ended s t (recovering (statement self)) (recovering (statement self')) := by
  refine Pairs.recovering hR ?_
  refine (pairs_bareStatement hR hself s t hst).bind fun st s₁ t₁ h₁ => ?_
  exact (pairs_semicolon hR h₁).bind fun _ s₂ t₂ h₂ => pairs_pure h₂

theorem pairs_statementsUpToBrace (hbraced : R.braced) : ∀ {n n' : Nat}, n ≤ n' → ∀ {s t},
    R.ended s t →
      Pairs R R.meets s t (statementsUpToBrace self n) (statementsUpToBrace self' n') := by
  intro n
  induction n with
  | zero => exact fun _ _ _ _ => pairs_exhausted
  | succ n ih =>
      intro n' hn s t hst
      obtain ⟨n', rfl⟩ : ∃ l, n' = l + 1 := ⟨n' - 1, by omega⟩
      refine pairs_peek ?_
      by_cases hk : s.peek.kind = .rightBrace
      · rcases hR.ends hbraced hst hk with ⟨heq, h₁⟩
        simp only [heq, hk]
        exact pairs_take (pairs_pure h₁)
      · have hmeets := hR.within hbraced hst hk
        have heq : t.peek = s.peek := (hR.peek hmeets).resolve_right fun h => h.2.2 hbraced
        rw [heq]
        split
        · rename_i hbrace
          exact absurd hbrace hk
        · exact pairs_pure hmeets
        · refine (pairs_recovering hR hself hmeets).bind fun st s₁ t₁ h₁ => ?_
          exact (ih (by omega) h₁).bind fun ss s₂ t₂ h₂ => pairs_pure h₂

theorem pairs_block (hbraced : R.braced) {n n' : Nat} (hn : n ≤ n') :
    Meeting R (block self n) (block self' n') :=
  fun _ _ hst => Pairs.inBlock hR hbraced
    (pairs_statementsUpToBrace hR hself hbraced hn (hR.still (hR.opened hbraced hst)))

theorem pairs_conditional : ∀ {n n' : Nat}, n ≤ n' →
    Meeting R (conditional self n) (conditional self' n') := by
  intro n
  induction n with
  | zero => exact fun _ _ _ _ => pairs_exhausted
  | succ n ih =>
      intro n' hn s t hst
      obtain ⟨n', rfl⟩ : ∃ l, n' = l + 1 := ⟨n' - 1, by omega⟩
      refine (hself .lowest s t hst).bind fun test s₁ t₁ h₁ => ?_
      refine (pairs_expect hR h₁ (by decide)).bind
        fun _ s₂ t₂ ⟨h₂, hbraced⟩ => ?_
      refine (pairs_block hR hself (hbraced rfl) (by omega) s₂ t₂ h₂).bind
        fun consequence s₃ t₃ h₃ => ?_
      refine (pairs_accept hR h₃ (by decide) (.inl (by decide))).bind
        fun more s₄ t₄ h₄ => ?_
      split
      · refine (pairs_accept hR h₄ (by decide) (.inl (by decide))).bind
          fun again s₅ t₅ h₅ => ?_
        split
        · exact (ih (by omega) s₅ t₅ h₅).bind fun nested s₆ t₆ h₆ => pairs_pure h₆
        · refine (pairs_expect hR h₅ (by decide)).bind
            fun _ s₆ t₆ h₆ => ?_
          exact (pairs_block hR hself (hbraced rfl) (by omega) s₆ t₆ h₆.1).bind
            fun alternative s₇ t₇ h₇ => pairs_pure h₇
      · exact pairs_pure h₄

theorem pairs_function {n n' : Nat} (hn : n ≤ n') :
    Meeting R (function self n) (function self' n') := by
  intro s t hst
  refine (pairs_expect hR hst (by decide)).bind fun _ s₁ t₁ h₁ => ?_
  refine (pairs_listUpTo hR (pairs_parameter hR) (by decide) hn s₁ t₁ h₁.1).bind
    fun params s₂ t₂ h₂ => ?_
  refine (pairs_expect hR h₂ (by decide)).bind
    fun _ s₃ t₃ ⟨h₃, hbraced⟩ => ?_
  exact (pairs_block hR hself (hbraced rfl) hn s₃ t₃ h₃).bind fun body s₄ t₄ h₄ => pairs_pure h₄

/-- An expression without operators. A token that starts none is refused in
    both runs, be it the same one or not. -/
theorem pairs_operand {n n' : Nat} (hn : n ≤ n') :
    Meeting R (operand self n) (operand self' n') := by
  intro s t hst
  refine pairs_take ?_
  rcases hR.peek hst with heq | ⟨hs, ht, -⟩
  · rw [heq]
    by_cases hstart : s.peek.kind ∉ Grammar.starting
    · have hrefused := hR.unexpected hst hstart
      rw [heq] at hrefused
      split
      case h_13 => exact .failed hrefused
      all_goals
        rename_i hk
        exact absurd (by rw [hk]; decide) hstart
    have hmem := Decidable.not_not.mp hstart
    have h₁ := hR.next hst heq (fun hk => absurd (hk ▸ hmem) (by decide))
      (fun hk => absurd (hk ▸ hmem) (by decide))
    split
    · exact pairs_pure h₁
    · rename_i hk
      exact pairs_integer hR hst heq hk
    · exact pairs_pure h₁
    · exact pairs_pure h₁
    · exact pairs_pure h₁
    · exact (hself .unary _ _ h₁).bind fun e s₂ t₂ h₂ => pairs_pure h₂
    · exact (hself .unary _ _ h₁).bind fun e s₂ t₂ h₂ => pairs_pure h₂
    · refine (hself .lowest _ _ h₁).bind fun e s₂ t₂ h₂ => ?_
      exact (pairs_expect hR h₂ (by decide)).bind fun _ s₃ t₃ h₃ => pairs_pure h₃.1
    · exact pairs_conditional hR hself hn _ _ h₁
    · exact pairs_function hR hself hn _ _ h₁
    · exact (pairs_listUpTo hR (hself .lowest) (by decide) hn _ _ h₁).bind
        fun es s₂ t₂ h₂ => pairs_pure h₂
    · rename_i hk
      exact (pairs_pairs hR hself (hR.brace hst hk) hn _ _ h₁).bind
        fun ps s₂ t₂ h₂ => pairs_pure h₂
    · -- All tokens that start an expression have had their turn.
      simp only [Grammar.starting, List.mem_cons, List.not_mem_nil, or_false] at hmem
      grind
  · have hrefused := hR.unexpected hst (by rw [hs]; decide)
    simp only [hs, ht]
    exact .failed hrefused

theorem pairs_operator {n n' : Nat} (hn : n ≤ n') (op : Token) (left : Expr) :
    Meeting R (operator self n op left) (operator self' n' op left) := by
  intro s t hst
  unfold operator
  split
  · exact (pairs_listUpTo hR (hself .lowest) (by decide) hn s t hst).bind
      fun args s₁ t₁ h₁ => pairs_pure h₁
  · refine (hself .lowest s t hst).bind fun key s₁ t₁ h₁ => ?_
    exact (pairs_expect hR h₁ (by decide)).bind fun _ s₂ t₂ h₂ => pairs_pure h₂.1
  · exact (hself _ s t hst).bind fun right s₁ t₁ h₁ => pairs_pure h₁

theorem pairs_operators {n n' : Nat} (hn : n ≤ n') (p : Precedence) : ∀ {m m' : Nat}, m ≤ m' →
    ∀ left, Meeting R (operators self n p m left) (operators self' n' p m' left) := by
  intro m
  induction m with
  | zero => exact fun _ _ _ _ _ => pairs_exhausted
  | succ m ih =>
      intro m' hm left s t hst
      obtain ⟨m', rfl⟩ : ∃ l, m' = l + 1 := ⟨m' - 1, by omega⟩
      refine pairs_peek ?_
      rcases hR.peek hst with heq | ⟨hs, ht, -⟩
      · rw [heq]
        split
        · rename_i hp
          -- What ends a statement or a text binds as loosely as can be, so it is no operator.
          have hbinds : ∀ k, Precedence.ofKind k = .lowest → s.peek.kind ≠ k := by
            intro k hk hsame
            rw [hsame, hk] at hp
            exact absurd hp (Nat.not_lt_zero _)
          have h₁ := hR.next hst heq (hbinds .semicolon rfl) (hbinds .finish rfl)
          refine pairs_take ?_
          refine (pairs_operator hR hself hn s.peek left _ _ h₁).bind fun longer s₂ t₂ h₂ => ?_
          exact ih (by omega) longer s₂ t₂ h₂
        · exact pairs_pure hst
      · have hloose : ¬p < Precedence.lowest := Nat.not_lt_zero _
        simp only [hs, ht, Precedence.ofKind, if_neg hloose]
        exact pairs_pure hst

/-- Programs, if nothing happens behind a statement that could not happen
    between any two tokens. -/
theorem pairs_program (hfresh : ∀ {s t}, R.ended s t → R.meets s t) (hbraced : R.braced) :
    ∀ {n n' : Nat}, n ≤ n' → Meeting R (program self n) (program self' n') := by
  intro n
  induction n with
  | zero => exact fun _ _ _ _ => pairs_exhausted
  | succ n ih =>
      intro n' hn s t hst
      obtain ⟨n', rfl⟩ : ∃ l, n' = l + 1 := ⟨n' - 1, by omega⟩
      have heq : t.peek = s.peek := (hR.peek hst).resolve_right fun h => h.2.2 hbraced
      refine pairs_peek ?_
      rw [heq]
      split
      · exact pairs_pure hst
      · refine (pairs_recovering hR hself hst).bind fun st s₁ t₁ h₁ => ?_
        exact (ih (by omega) s₁ t₁ (hfresh h₁)).bind fun ss s₂ t₂ h₂ => pairs_pure h₂

omit hself

/-- Expressions keep two runs together, the second one with no less fuel. -/
theorem pairs_expression : ∀ {n n' : Nat}, n ≤ n' → ∀ p,
    Meeting R (expression n p) (expression n' p) := by
  intro n
  induction n with
  | zero => exact fun _ _ _ _ _ => pairs_exhausted
  | succ n ih =>
      intro n' hn p s t hst
      obtain ⟨n', rfl⟩ : ∃ l, n' = l + 1 := ⟨n' - 1, by omega⟩
      refine (pairs_operand hR (ih (by omega)) (by omega) s t hst).bind fun left s₁ t₁ h₁ => ?_
      exact pairs_operators hR (ih (by omega)) (by omega) p (by omega) left s₁ t₁ h₁

end

end Parser

end Monkey
