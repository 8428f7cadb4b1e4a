import Monkey.Proofs.Parsing.Precedence

/-!
# The Parser Reads Everything in the Language

From a derivation to the run of a parser.

The parser decides from a single token what to do, so a derivation can be
followed by it only if the token behind the phrase does not suggest something
else. `Fits` says so for each kind of phrase: an expression is not followed by
an operator that binds tighter than its own tier, and nothing that may end in
a condition is followed by `else`. The rules of the grammar establish this for
the phrases inside, and nothing has to be assumed of a whole program.

The induction follows the derivation, with one lemma for each rule. An
expression needs more than that the parser finds it. Its derivation may go on
to the left, where it is the left operand of something larger, and there the
parser has not returned but is in the middle of its loop. So `Passes` is the
hypothesis for expressions: whatever precedence the parser was asked for, it
gets to a point at which it has made up the expression and is about to look
for the next operator. That it returns the expression is the special case in
which there is none.

## Main definitions

* `Parser.Finds`: A parser finds something at the front of some tokens.
* `Parser.routine`: The routine that reads phrases of a kind.
* `Parser.Fits`: What may follow a phrase.
* `Parser.Passes`: The parser comes past an expression.
* `Parser.Parsed`: What a derivation means for the parser.

## Theorems

* `Parser.Finds.bind`: What is found in two steps.
* `Parser.Passes.finds`: An expression without an operator behind it is found.
* `Parser.Passes.operator`: An operator behind an expression that was passed.
* `Parser.parsed_binary` and the like: The rules of the grammar.
* `Parser.parsed_of_derives`: Every derivation is followed by the parser.
-/

namespace Monkey

open Grammar

/-- The state with other unread tokens. -/
def ParseState.at (s : ParseState) (rest : List Token) : ParseState :=
  { s with rest }

namespace Parser

variable {α β : Type}

/-- A parser finds something at the front of some tokens, and other tokens
    remain. Nothing else changes, and no error is recorded. -/
def Finds (p : Parser α) (a : α) (i o : List Token) : Prop :=
  ∀ s : ParseState, p (s.at i) = .ok a (s.at o)

variable {a : α} {b : β} {i m o : List Token} {t : Token} {k : Kind}

theorem finds_pure : Finds (pure a) a i i :=
  fun _ => rfl

/-- What was found is handed on. -/
theorem Finds.bind_eq {p : Parser α} (hp : Finds p a i m) (f : α → Parser β) (s : ParseState) :
    (p >>= f) (s.at i) = f a (s.at m) := by
  simp only [bind, hp s]

theorem Finds.bind {p : Parser α} {f : α → Parser β} (hp : Finds p a i m)
    (hf : Finds (f a) b m o) : Finds (p >>= f) b i o :=
  fun s => (hp.bind_eq f s).trans (hf s)

theorem finds_take : Finds take t (t :: o) o :=
  fun _ => rfl

theorem finds_expect (h : t.kind = k) : Finds (expect k) t (t :: o) o := by
  intro s
  exact if_pos h

theorem finds_accept (h : t.kind = k) : Finds (accept k) true (t :: o) o := by
  intro s
  exact if_pos h

theorem finds_accept_false (h : ahead i ≠ k) : Finds (accept k) false i i := by
  intro s
  refine if_neg ?_
  rw [ParseState.peek_kind]
  exact h

/-- A parser that looks at the next token finds what it finds for every token
    of that kind. -/
theorem finds_peek {f : Token → Parser α} (hf : ∀ t, t.kind = ahead i → Finds (f t) a i o) :
    Finds (peek >>= f) a i o :=
  fun s => hf (s.at i).peek (ParseState.peek_kind _) s

theorem Finds.inBlock {p : Parser α} (h : Finds p a i o) : Finds (inBlock p) a i o := by
  intro s
  unfold Parser.inBlock
  have hopened := h { s with openBlocks := s.openBlocks + 1 }
  simp only [ParseState.at] at hopened ⊢
  rw [hopened]
  simp only [Nat.add_sub_cancel]

/-- A statement with the semicolon behind it. -/
theorem Finds.ended {self : Precedence → Parser Expr} {s : Stmt}
    (h : Finds (bareStatement self) s i (t :: o)) (ht : t.kind = .semicolon) :
    Finds (statement self) s i o :=
  h.bind ((finds_accept ht).bind finds_pure)

/-- A statement with no semicolon behind it. -/
theorem Finds.adjacent {self : Precedence → Parser Expr} {s : Stmt}
    (h : Finds (bareStatement self) s i o) (ho : ahead o ≠ .semicolon) :
    Finds (statement self) s i o :=
  h.bind ((finds_accept_false ho).bind finds_pure)

theorem Finds.recovering {p : Parser α} (h : Finds p a i o) :
    Finds (recovering p) (some a) i o := by
  intro s
  unfold Parser.recovering
  rw [h s]

/-- The routine that reads phrases of a kind, behind the tokens that the
    grammar leaves out too. -/
def routine (self : Precedence → Parser Expr) (fuel : Nat) : (x : Phrase) → Parser x.Tree
  | .expr _ => self .lowest
  | .conditional => conditional self fuel
  | .item .expression => self .lowest
  | .item .parameter => parameter
  | .list close .expression => listUpTo close (self .lowest) fuel
  | .list close .parameter => listUpTo close parameter fuel
  | .tail .expression => commaTail (self .lowest) fuel
  | .tail .parameter => commaTail parameter fuel
  | .pairs => pairsUpToBrace self fuel
  | .statement => bareStatement self
  | .statements true => statementsUpToBrace self fuel
  | .statements false => program self fuel

theorem routine_list {self : Precedence → Parser Expr} {fuel : Nat} {close : Kind} (x : Item) :
    routine self fuel (.list close x) = listUpTo close (routine self fuel (.item x)) fuel := by
  cases x <;> rfl

theorem routine_tail {self : Precedence → Parser Expr} {fuel : Nat} (x : Item) :
    routine self fuel (.tail x) = commaTail (routine self fuel (.item x)) fuel := by
  cases x <;> rfl

/-- What follows a phrase does not go on with it. -/
def Fits : Phrase → List Token → Prop
  | .expr tier, o => ¬tier.binding < .ofKind (ahead o) ∧ ahead o ≠ .elseWord
  | .conditional, o => ahead o ≠ .elseWord
  | .item .expression, o => ahead o ∉ continuing ∧ ahead o ≠ .elseWord
  | .list close _, _ => close = .rightParen ∨ close = .rightBracket
  | .tail _, o => ahead o = .rightParen ∨ ahead o = .rightBracket
  | .statement, o => ahead o ∉ continuing ∧ ahead o ≠ .elseWord
  | _, _ => True

/-- The parser comes past an expression: having read the tokens `i`, it has
    made up the expression and is in front of the tokens `o`, where it looks
    for another operator. -/
def Passes (tier : Tier) (e : Expr) (i o : List Token) : Prop :=
  ∀ (n : Nat) (p : Precedence), i.length ≤ n → p < .call → p.tier.level ≤ tier.level →
    ∃ k, o.length < k ∧ ∀ s : ParseState,
      expression (n + 1) p (s.at i) = operators (expression n) n p k e (s.at o)

/-- What a derivation means for the parser. An expression is passed, so that
    it can become a left operand; any other phrase is found by its routine. -/
def Parsed (x : Phrase) (tree : x.Tree) (i o : List Token) : Prop :=
  match x with
  | .expr tier => Passes tier tree i o
  | x => ∀ n k, i.length < n → i.length < k → Finds (routine (expression n) k x) tree i o

/-- Fuel beyond a number of tokens is not used up. -/
theorem exists_fuel {n k : Nat} (h : n < k) : ∃ l, k = l + 1 :=
  Nat.exists_eq_add_one_of_ne_zero (Nat.ne_zero_of_lt h)

theorem Passes.finds {tier : Tier} {e : Expr} (h : Passes tier e i o) {p : Precedence}
    (hcall : p < .call) (hp : p.tier.level ≤ tier.level) (hstop : ¬p < .ofKind (ahead o))
    {n : Nat} (hn : i.length < n) : Finds (expression n p) e i o := by
  intro s
  cases n with
  | zero => exact absurd hn (Nat.not_lt_zero _)
  | succ n =>
      rcases h n p (by omega) hcall hp with ⟨k, hk, h⟩
      rw [h s]
      rcases exists_fuel hk with ⟨k, rfl⟩
      -- The loop looks for one more operator and finds that there is none.
      refine finds_peek (fun t ht => ?_) s
      rw [ht, if_neg hstop]
      exact finds_pure

/-- An operand has been passed when the loop over operators starts. -/
theorem Passes.of_operand {tier : Tier} {e : Expr} (hlen : o.length ≤ i.length)
    (h : ∀ n, i.length < n → Finds (operand (expression n) n) e (t :: i) o) :
    Passes tier e (t :: i) o := by
  intro n p hn _ _
  rw [List.length_cons] at hn
  refine ⟨n, by omega, fun s => ?_⟩
  simp only [expression]
  exact (h n hn).bind_eq _ s

/-- One more operator is taken behind an expression that was passed. -/
theorem Passes.operator {tier tier' : Tier} {left e : Expr} (h : Passes tier' left i (t :: m))
    (hlevel : tier.level ≤ tier'.level) (hlen : o.length ≤ m.length)
    (htaken : ∀ p : Precedence, p < .call → p.tier.level ≤ tier.level → p < .ofKind t.kind)
    (hop : ∀ n, i.length ≤ n → Finds (operator (expression n) n t left) e m o) :
    Passes tier e i o := by
  intro n p hn hcall hp
  rcases h n p hn hcall (by omega) with ⟨k, hk, h⟩
  rw [List.length_cons] at hk
  rcases exists_fuel hk with ⟨k, rfl⟩
  -- One round of the loop, which is the operator; the fuel left is for those behind it.
  refine ⟨k, by omega, fun s => ?_⟩
  rw [h s]
  simp only [operators]
  change (if p < .ofKind t.kind then
    (take >>= fun _ => Parser.operator (expression n) n t left >>= fun longer =>
      operators (expression n) n p k longer) else pure left) (s.at (t :: m)) = _
  rw [if_pos (htaken p hcall hp)]
  exact (finds_take.bind_eq _ s).trans ((hop n hn).bind_eq _ s)

/-- What the induction says about an expression inside another phrase: if a
    token follows that is no operator then the expression is found. -/
theorem finds_before {e : Expr}
    (ih : Fits (.expr .equality) o → Parsed (.expr .equality) e i o) (hk : ahead o = k)
    {n : Nat} (hn : i.length < n)
    (hfollow : k ∉ continuing ∧ k ≠ .elseWord) :
    Finds (expression n .lowest) e i o := by
  rw [← hk] at hfollow
  have hstop := not_lowest_lt hfollow.1
  have hfits : Fits (.expr .equality) o :=
    ⟨fun h => hstop (Nat.lt_of_le_of_lt (Nat.zero_le _) h), hfollow.2⟩
  exact (ih hfits).finds (by decide) (by decide) hstop hn

theorem parsed_int {n : Int64} (ht : t.kind = .integer)
    (hn : Text.readInteger? t.literal = some n) :
    Parsed (.expr .primary) (Expr.int n) (t :: o) o := by
  refine .of_operand (Nat.le_refl _) fun k _ => finds_take.bind ?_
  simp only [ht, integer, hn]
  exact finds_pure

theorem parsed_grouped {l r : Token} {e : Expr} (hl : l.kind = .leftParen)
    (he : Derives (.expr .equality) e i (r :: o)) (hr : r.kind = .rightParen)
    (ih : Fits (.expr .equality) (r :: o) → Parsed (.expr .equality) e i (r :: o)) :
    Parsed (.expr .primary) e (l :: i) o := by
  have hlen := he.length_le
  simp only [Phrase.least, List.length_cons] at hlen
  refine .of_operand (by omega) fun n hn => finds_take.bind ?_
  simp only [hl, grouped]
  have hinner := finds_before ih hr (n := n) (by omega) (by decide)
  exact hinner.bind ((finds_expect hr).bind finds_pure)

theorem parsed_array {l : Token} {es : List Expr} (hl : l.kind = .leftBracket)
    (hes : Derives (.list .rightBracket .expression) es i o)
    (ih : Fits (.list .rightBracket .expression) o →
      Parsed (.list .rightBracket .expression) es i o) :
    Parsed (.expr .primary) (Expr.array es) (l :: i) o := by
  have hlen := hes.length_le
  refine .of_operand (by omega) fun n hn => finds_take.bind ?_
  simp only [hl]
  exact (ih (.inr rfl) n n (by omega) (by omega)).bind finds_pure

theorem parsed_map {l : Token} {ps : List (Expr × Expr)} (hl : l.kind = .leftBrace)
    (hps : Derives .pairs ps i o) (ih : Fits .pairs o → Parsed .pairs ps i o) :
    Parsed (.expr .primary) (Expr.map ps) (l :: i) o := by
  have hlen := hps.length_le
  refine .of_operand (by omega) fun n hn => finds_take.bind ?_
  simp only [hl]
  exact (ih trivial n n (by omega) (by omega)).bind finds_pure

theorem parsed_cond {w : Token} {e : Expr} (hw : w.kind = .ifWord)
    (he : Derives .conditional e i o) (helse : ahead o ≠ .elseWord)
    (ih : Fits .conditional o → Parsed .conditional e i o) :
    Parsed (.expr .primary) e (w :: i) o := by
  have hlen := he.length_le
  refine .of_operand (by omega) fun n hn => finds_take.bind ?_
  simp only [hw]
  exact ih helse n n (by omega) (by omega)

theorem parsed_fn {w l b : Token} {ps : List String} {body : Block} (hw : w.kind = .fnWord)
    (hl : l.kind = .leftParen) (hps : Derives (.list .rightParen .parameter) ps i (b :: m))
    (hb : b.kind = .leftBrace) (hbody : Derives (.statements true) body m o)
    (ihps : Fits (.list .rightParen .parameter) (b :: m) →
      Parsed (.list .rightParen .parameter) ps i (b :: m))
    (ihbody : Fits (.statements true) o → Parsed (.statements true) body m o) :
    Parsed (.expr .primary) (Expr.fn ps body) (w :: l :: i) o := by
  have hlen := hps.length_le
  have hlen' := hbody.length_le
  simp only [Phrase.least, List.length_cons] at hlen hlen'
  refine .of_operand (by rw [List.length_cons]; omega) fun n hn => finds_take.bind ?_
  rw [List.length_cons] at hn
  simp only [hw, function]
  have hparams := ihps (.inl rfl) n n (by omega) (by omega)
  have hblock := ihbody trivial n n (by omega) (by omega)
  exact (finds_expect hl).bind (hparams.bind ((finds_expect hb).bind
    (hblock.inBlock.bind finds_pure)))

theorem parsed_unary {e : Expr} (ht : t.kind = .bang ∨ t.kind = .minus)
    (he : Derives (.expr .unary) e i o) (hfit : Fits (.expr .unary) o)
    (ih : Fits (.expr .unary) o → Parsed (.expr .unary) e i o) :
    Parsed (.expr .unary) (Expr.unary t.kind e) (t :: i) o := by
  have hlen := he.length_le
  refine .of_operand (by omega) fun n hn => finds_take.bind ?_
  -- A sign asks for its own tier again, so signs in a row nest.
  have hinner := (ih hfit).finds (p := .unary) (by decide) (by decide) hfit.1 (n := n) (by omega)
  rcases ht with ht | ht <;> simp only [ht] <;> exact hinner.bind finds_pure

theorem parsed_call {l : Token} {f : Expr} {args : List Expr}
    (hl : l.kind = .leftParen) (hargs : Derives (.list .rightParen .expression) args m o)
    (hf : Derives (.expr .application) f i (l :: m))
    (ihf : Fits (.expr .application) (l :: m) → Parsed (.expr .application) f i (l :: m))
    (ihargs : Fits (.list .rightParen .expression) o →
      Parsed (.list .rightParen .expression) args m o) :
    Parsed (.expr .application) (Expr.call f args) i o := by
  have hlen := hf.length_le
  have hlen' := hargs.length_le
  simp only [Phrase.least, List.length_cons] at hlen hlen'
  -- Whatever the loop was asked for, it takes a parenthesis, as nothing binds tighter.
  have hleft := ihf ⟨by rw [ahead_cons, hl]; decide, by rw [ahead_cons, hl]; decide⟩
  refine hleft.operator (Nat.le_refl _) (by omega) (fun p hp _ => by rw [hl]; exact hp)
    fun n hn => ?_
  simp only [operator, hl]
  exact (ihargs (.inl rfl) n n (by omega) (by omega)).bind finds_pure

theorem parsed_index {l r : Token} {base key : Expr}
    (hbase : Derives (.expr .application) base i (l :: m)) (hl : l.kind = .leftBracket)
    (hkey : Derives (.expr .equality) key m (r :: o)) (hr : r.kind = .rightBracket)
    (ihbase : Fits (.expr .application) (l :: m) → Parsed (.expr .application) base i (l :: m))
    (ihkey : Fits (.expr .equality) (r :: o) → Parsed (.expr .equality) key m (r :: o)) :
    Parsed (.expr .application) (Expr.index base key) i o := by
  have hlen := hbase.length_le
  have hlen' := hkey.length_le
  simp only [Phrase.least, List.length_cons] at hlen hlen'
  have hleft := ihbase ⟨by rw [ahead_cons, hl]; decide, by rw [ahead_cons, hl]; decide⟩
  refine hleft.operator (Nat.le_refl _) (by omega) (fun p hp _ => by rw [hl]; exact hp)
    fun n hn => ?_
  simp only [operator, hl]
  have hinner := finds_before ihkey hr (n := n) (by omega) (by decide)
  exact hinner.bind ((finds_expect hr).bind finds_pure)

theorem parsed_binary {tier : Tier} {l r : Expr} (hl : Derives (.expr tier) l i (t :: m))
    (ht : t.kind ∈ tier.operators) (hr : Derives (.expr tier.next) r m o)
    (hfit : Fits (.expr tier) o)
    (ihl : Fits (.expr tier) (t :: m) → Parsed (.expr tier) l i (t :: m))
    (ihr : Fits (.expr tier.next) o → Parsed (.expr tier.next) r m o) :
    Parsed (.expr tier) (Expr.binary t.kind l r) i o := by
  have hlen := hl.length_le
  have hlen' := hr.length_le
  simp only [Phrase.least, List.length_cons] at hlen hlen'
  rcases binding_of_mem ht with ⟨hbinding, htier⟩
  have helse : t.kind ≠ .elseWord := fun h => by
    rw [h] at ht
    exact absurd ht (by cases tier <;> decide)
  have hleft := ihl ⟨by rw [ahead_cons, hbinding]; exact Nat.lt_irrefl _, helse⟩
  refine hleft.operator (Nat.le_refl _) (by omega) (fun p _ hp => lt_ofKind_of_mem ht hp)
    fun n hn => ?_
  -- The right operand is read at the precedence of the operator, so it ends where this one does.
  have hright : Finds (expression n (.ofKind t.kind)) r m o := by
    refine (ihr ⟨not_next_binding_lt hfit.1, hfit.2⟩).finds ?_ ?_ ?_ (by omega)
    · rw [← hbinding]
      cases tier <;> first | decide | exact absurd ht List.not_mem_nil
    · exact Nat.le_of_eq (congrArg _ htier)
    · rw [← hbinding]
      exact hfit.1
  unfold operator
  generalize hk : t.kind = k at hright ht
  split
  · exact absurd ht (by cases tier <;> decide)
  · exact absurd ht (by cases tier <;> decide)
  · exact hright.bind finds_pure

theorem parsed_noElse {b : Token} {test : Expr} {c : Block}
    (htest : Derives (.expr .equality) test i (b :: m)) (hb : b.kind = .leftBrace)
    (helse : ahead o ≠ .elseWord)
    (ihtest : Fits (.expr .equality) (b :: m) → Parsed (.expr .equality) test i (b :: m))
    (ihc : Fits (.statements true) o → Parsed (.statements true) c m o) :
    Parsed .conditional (Expr.cond test c none) i o := by
  intro n k hn hk
  have hlen := htest.length_le
  simp only [Phrase.least, List.length_cons] at hlen
  rcases exists_fuel hk with ⟨k, rfl⟩
  have htest := finds_before ihtest hb hn (by decide)
  have hblock := (ihc trivial n k (by omega) (by omega)).inBlock
  exact htest.bind ((finds_expect hb).bind (hblock.bind
    ((finds_accept_false helse).bind finds_pure)))

theorem parsed_elseBlock {b w b' : Token} {test : Expr} {c d : Block} {m' : List Token}
    (htest : Derives (.expr .equality) test i (b :: m)) (hb : b.kind = .leftBrace)
    (hc : Derives (.statements true) c m (w :: b' :: m')) (hw : w.kind = .elseWord)
    (hb' : b'.kind = .leftBrace)
    (ihtest : Fits (.expr .equality) (b :: m) → Parsed (.expr .equality) test i (b :: m))
    (ihc : Fits (.statements true) (w :: b' :: m') →
      Parsed (.statements true) c m (w :: b' :: m'))
    (ihd : Fits (.statements true) o → Parsed (.statements true) d m' o) :
    Parsed .conditional (Expr.cond test c (some d)) i o := by
  intro n k hn hk
  have hlen := htest.length_le
  have hlen' := hc.length_le
  simp only [Phrase.least, List.length_cons] at hlen hlen'
  rcases exists_fuel hk with ⟨k, rfl⟩
  have htest := finds_before ihtest hb hn (by decide)
  have hblock := (ihc trivial n k (by omega) (by omega)).inBlock
  have hblock' := (ihd trivial n k (by omega) (by omega)).inBlock
  -- Behind `else` the parser looks for another condition before it looks for a block.
  have hif : ahead (b' :: m') ≠ .ifWord := by
    rw [ahead_cons, hb']
    decide
  exact htest.bind ((finds_expect hb).bind (hblock.bind ((finds_accept hw).bind
    ((finds_accept_false hif).bind ((finds_expect hb').bind (hblock'.bind finds_pure))))))

theorem parsed_elseIf {b w w' : Token} {test nested : Expr} {c : Block} {m' : List Token}
    (htest : Derives (.expr .equality) test i (b :: m)) (hb : b.kind = .leftBrace)
    (hc : Derives (.statements true) c m (w :: w' :: m')) (hw : w.kind = .elseWord)
    (hw' : w'.kind = .ifWord) (helse : ahead o ≠ .elseWord)
    (ihtest : Fits (.expr .equality) (b :: m) → Parsed (.expr .equality) test i (b :: m))
    (ihc : Fits (.statements true) (w :: w' :: m') →
      Parsed (.statements true) c m (w :: w' :: m'))
    (ihnested : Fits .conditional o → Parsed .conditional nested m' o) :
    Parsed .conditional (Expr.cond test c (some [.expr nested])) i o := by
  intro n k hn hk
  have hlen := htest.length_le
  have hlen' := hc.length_le
  simp only [Phrase.least, List.length_cons] at hlen hlen'
  rcases exists_fuel hk with ⟨k, rfl⟩
  have htest := finds_before ihtest hb hn (by decide)
  have hblock := (ihc trivial n k (by omega) (by omega)).inBlock
  have hnested := ihnested helse n k (by omega) (by omega)
  exact htest.bind ((finds_expect hb).bind (hblock.bind ((finds_accept hw).bind
    ((finds_accept hw').bind (hnested.bind finds_pure)))))

/-- What follows an item of a list does not go on with it. -/
theorem fits_item {x : Item}
    (h : ahead o = .comma ∨ ahead o = .rightParen ∨ ahead o = .rightBracket) :
    Fits (.item x) o := by
  cases x with
  | parameter => trivial
  | expression => rcases h with h | h | h <;> simp only [Fits, h] <;> decide

theorem tail_follows {x : Item} {as : List x.Tree} (h : Derives (.tail x) as m o) :
    ahead m = .comma ∨ ahead m = ahead o := by
  cases h with
  | tailEmpty => exact .inr rfl
  | tailItem hc _ _ => exact .inl hc

theorem parsed_listItems {close : Kind} {x : Item} {a : x.Tree} {as : List x.Tree} {r : Token}
    (ha : Derives (.item x) a i m) (has : Derives (.tail x) as m (r :: o)) (hr : r.kind = close)
    (hclose : close = .rightParen ∨ close = .rightBracket)
    (iha : Fits (.item x) m → Parsed (.item x) a i m)
    (ihas : Fits (.tail x) (r :: o) → Parsed (.tail x) as m (r :: o)) :
    Parsed (.list close x) (a :: as) i o := by
  intro n k hn hk
  have hlen := ha.length_le
  simp only [Phrase.least] at hlen
  have hfollow : ahead m = .comma ∨ ahead m = .rightParen ∨ ahead m = .rightBracket := by
    rcases tail_follows has with h | h
    · exact .inl h
    · rw [h, ahead_cons, hr]
      exact .inr hclose
  have hitem := iha (fits_item hfollow) n k hn hk
  have htail := ihas (by simp only [Fits, ahead_cons, hr]; exact hclose) n k (by omega) (by omega)
  -- The closing token is looked for first, and no item starts with it.
  have hstart : ahead i ≠ close := fun h => by
    have hmem := ha.item_starts
    rw [h] at hmem
    rcases hclose with h | h <;> rw [h] at hmem <;> exact absurd hmem (by decide)
  rw [routine_list]
  rw [routine_tail] at htail
  exact (finds_accept_false hstart).bind (hitem.bind (htail.bind
    ((finds_expect hr).bind finds_pure)))

theorem parsed_tailEmpty {x : Item} (hfit : Fits (.tail x) o) :
    Parsed (.tail x) ([] : List x.Tree) o o := by
  intro n k _ hk
  rcases exists_fuel hk with ⟨k, rfl⟩
  have hcomma : ahead o ≠ .comma := fun h => by
    simp only [Fits, h] at hfit
    exact absurd hfit (by decide)
  rw [routine_tail]
  exact (finds_accept_false hcomma).bind finds_pure

theorem parsed_tailItem {x : Item} {a : x.Tree} {as : List x.Tree} {c : Token}
    (hc : c.kind = .comma) (ha : Derives (.item x) a i m) (has : Derives (.tail x) as m o)
    (hfit : Fits (.tail x) o) (iha : Fits (.item x) m → Parsed (.item x) a i m)
    (ihas : Fits (.tail x) o → Parsed (.tail x) as m o) :
    Parsed (.tail x) (a :: as) (c :: i) o := by
  intro n k hn hk
  have hlen := ha.length_le
  simp only [Phrase.least, List.length_cons] at hlen hn hk
  have hfollow : ahead m = .comma ∨ ahead m = .rightParen ∨ ahead m = .rightBracket := by
    rcases tail_follows has with h | h
    · exact .inl h
    · rw [h]
      exact .inr hfit
  rcases exists_fuel hk with ⟨k, rfl⟩
  have hitem := iha (fits_item hfollow) n (k + 1) (by omega) (by omega)
  have htail := ihas hfit n k (by omega) (by omega)
  rw [routine_tail] at htail ⊢
  cases x <;> exact (finds_accept hc).bind (hitem.bind (htail.bind finds_pure))

theorem parsed_pairsEmpty {r : Token} (hr : r.kind = .rightBrace) :
    Parsed .pairs ([] : List (Expr × Expr)) (r :: o) o := by
  intro n k _ hk
  rcases exists_fuel hk with ⟨k, rfl⟩
  exact (finds_accept hr).bind finds_pure

/-- Where a pair can start, the map is not over. -/
theorem pair_starts {k : Expr} (hk : Derives (.expr .equality) k i o) :
    ahead i ≠ .rightBrace := fun h => by
  have hmem := hk.expr_starts
  rw [h] at hmem
  exact absurd hmem (by decide)

theorem parsed_pairsLast {c r : Token} {k v : Expr}
    (hk : Derives (.expr .equality) k i (c :: m)) (hc : c.kind = .colon)
    (hv : Derives (.expr .equality) v m (r :: o)) (hr : r.kind = .rightBrace)
    (ihk : Fits (.expr .equality) (c :: m) → Parsed (.expr .equality) k i (c :: m))
    (ihv : Fits (.expr .equality) (r :: o) → Parsed (.expr .equality) v m (r :: o)) :
    Parsed .pairs [(k, v)] i o := by
  intro n l hn hl
  have hlen := hk.length_le
  have hlen' := hv.length_le
  simp only [Phrase.least, List.length_cons] at hlen hlen'
  rcases exists_fuel hl with ⟨l, rfl⟩
  have hkey := finds_before ihk hc hn (by decide)
  have hvalue := finds_before ihv hr (n := n) (by omega) (by decide)
  -- The brace is left for the next round, which finds it where a pair could start.
  have hclose := parsed_pairsEmpty (o := o) hr n l
    (by simp only [List.length_cons]; omega) (by simp only [List.length_cons]; omega)
  refine (finds_accept_false (pair_starts hk)).bind (hkey.bind ((finds_expect hc).bind
    (hvalue.bind (finds_peek fun t ht => ?_))))
  rw [ht, ahead_cons, hr]
  exact hclose.bind finds_pure

theorem parsed_pairsMore {c s : Token} {k v : Expr} {ps : List (Expr × Expr)} {m' : List Token}
    (hk : Derives (.expr .equality) k i (c :: m)) (hc : c.kind = .colon)
    (hv : Derives (.expr .equality) v m (s :: m')) (hs : s.kind = .comma)
    (ihk : Fits (.expr .equality) (c :: m) → Parsed (.expr .equality) k i (c :: m))
    (ihv : Fits (.expr .equality) (s :: m') → Parsed (.expr .equality) v m (s :: m'))
    (ihps : Fits .pairs o → Parsed .pairs ps m' o) : Parsed .pairs ((k, v) :: ps) i o := by
  intro n l hn hl
  have hlen := hk.length_le
  have hlen' := hv.length_le
  simp only [Phrase.least, List.length_cons] at hlen hlen'
  rcases exists_fuel hl with ⟨l, rfl⟩
  have hkey := finds_before ihk hc hn (by decide)
  have hvalue := finds_before ihv hs (n := n) (by omega) (by decide)
  have hmore := ihps trivial n l (by omega) (by omega)
  refine (finds_accept_false (pair_starts hk)).bind (hkey.bind ((finds_expect hc).bind
    (hvalue.bind (finds_peek fun t ht => ?_))))
  rw [ht, ahead_cons, hs]
  exact (finds_expect hs).bind (hmore.bind finds_pure)

theorem parsed_bind {w t a : Token} {e : Expr} (hw : w.kind = .letWord)
    (ht : t.kind = .identifier) (ha : a.kind = .assign) (hfit : Fits .statement o)
    (ih : Fits (.expr .equality) o → Parsed (.expr .equality) e i o) :
    Parsed .statement (Stmt.bind t.literal e) (w :: t :: a :: i) o := by
  intro n k hn _
  simp only [List.length_cons] at hn
  refine finds_peek fun t ht => ?_
  rw [ht, ahead_cons, hw]
  have hvalue := finds_before ih rfl (n := n) (by omega) hfit
  exact finds_take.bind ((finds_expect ‹_›).bind ((finds_expect ha).bind
    (hvalue.bind finds_pure)))

theorem parsed_ret {w : Token} {e : Expr} (hw : w.kind = .returnWord) (hfit : Fits .statement o)
    (ih : Fits (.expr .equality) o → Parsed (.expr .equality) e i o) :
    Parsed .statement (Stmt.ret e) (w :: i) o := by
  intro n k hn _
  simp only [List.length_cons] at hn
  refine finds_peek fun t ht => ?_
  rw [ht, ahead_cons, hw]
  exact finds_take.bind ((finds_before ih rfl (n := n) (by omega) hfit).bind finds_pure)

theorem parsed_expr {e : Expr} (he : Derives (.expr .equality) e i o) (hfit : Fits .statement o)
    (ih : Fits (.expr .equality) o → Parsed (.expr .equality) e i o) :
    Parsed .statement (Stmt.expr e) i o := by
  intro n k hn _
  have hvalue := finds_before ih rfl hn hfit
  have hstart := he.expr_starts
  refine finds_peek fun t ht => ?_
  rw [← ht] at hstart
  generalize t.kind = kind at hstart
  -- An expression starts with neither of the words that start other statements.
  split
  · exact absurd hstart (by decide)
  · exact absurd hstart (by decide)
  · exact hvalue.bind finds_pure

/-- A block or a program does not go on with `else`. -/
theorem statements_follow {braced : Bool} {ss : Block}
    (h : Derives (.statements braced) ss i o) : ahead i ≠ .elseWord := by
  have hfirst : ∀ {s : Stmt} {m : List Token}, Derives .statement s i m →
      ahead i ≠ .elseWord := fun hs h => by
    have hmem := hs.statement_starts
    rw [h] at hmem
    exact absurd hmem (by decide)
  cases h with
  | finish ho =>
      rw [ho]
      decide
  | closed hr =>
      rw [ahead_cons, hr]
      decide
  | ended hs _ _ => exact hfirst hs
  | adjacent hs _ _ _ => exact hfirst hs

/-- One more statement in front of others. The two loops over statements
    differ in how they end only. -/
theorem parsed_cons {braced : Bool} {s : Stmt} {ss : Block}
    (hstart : ahead i ∈ .letWord :: .returnWord :: starting) (hlen : m.length < i.length)
    (hs : ∀ n, i.length < n → Finds (statement (expression n)) s i m)
    (ih : Parsed (.statements braced) ss m o) : Parsed (.statements braced) (s :: ss) i o := by
  intro n k hn hk
  rcases exists_fuel hk with ⟨k, rfl⟩
  have hrest := ih n k (by omega) (by omega)
  have hfirst := (hs n hn).recovering
  -- Either loop looks for its end first, and what is ahead starts a statement.
  cases braced with
  | true =>
      refine finds_peek fun t ht => ?_
      rw [← ht] at hstart
      generalize t.kind = kind at hstart
      split
      · exact absurd hstart (by decide)
      · exact absurd hstart (by decide)
      · exact hfirst.bind (hrest.bind finds_pure)
  | false =>
      refine finds_peek fun t ht => ?_
      have hkind : t.kind ≠ .finish := fun h => by
        rw [← ht, h] at hstart
        exact absurd hstart (by decide)
      rw [if_neg hkind]
      exact hfirst.bind (hrest.bind finds_pure)

theorem parsed_ended {braced : Bool} {c : Token} {s : Stmt} {ss : Block}
    (hs : Derives .statement s i (c :: m)) (hc : c.kind = .semicolon)
    (ihs : Fits .statement (c :: m) → Parsed .statement s i (c :: m))
    (ihss : Fits (.statements braced) o → Parsed (.statements braced) ss m o) :
    Parsed (.statements braced) (s :: ss) i o := by
  have hlen := hs.length_le
  simp only [Phrase.least, List.length_cons] at hlen
  have hbare := ihs (by simp only [Fits, ahead_cons, hc]; decide)
  refine parsed_cons hs.statement_starts (by omega) (fun n hn => ?_)
    (ihss (by cases braced <;> trivial))
  exact (hbare n n hn hn).ended hc

theorem parsed_adjacent {braced : Bool} {s : Stmt} {ss : Block}
    (hs : Derives .statement s i m) (hsemi : ahead m ≠ .semicolon)
    (hcont : ahead m ∉ continuing) (hss : Derives (.statements braced) ss m o)
    (ihs : Fits .statement m → Parsed .statement s i m)
    (ihss : Fits (.statements braced) o → Parsed (.statements braced) ss m o) :
    Parsed (.statements braced) (s :: ss) i o := by
  have hlen := hs.length_le
  simp only [Phrase.least] at hlen
  -- The grammar says which operators must not follow; `else` cannot follow anyway.
  have hbare := ihs ⟨hcont, statements_follow hss⟩
  refine parsed_cons hs.statement_starts (by omega) (fun n hn => ?_)
    (ihss (by cases braced <;> trivial))
  exact (hbare n n hn hn).adjacent hsemi

theorem parsed_finish {braced : Bool} (ho : ahead o = .finish) :
    Parsed (.statements braced) ([] : Block) o o := by
  intro n k _ hk
  rcases exists_fuel hk with ⟨k, rfl⟩
  cases braced with
  | true =>
      refine finds_peek fun t ht => ?_
      rw [ht, ho]
      exact finds_pure
  | false =>
      refine finds_peek fun t ht => ?_
      rw [if_pos (ht.trans ho)]
      exact finds_pure

theorem parsed_closed {r : Token} (hr : r.kind = .rightBrace) :
    Parsed (.statements true) ([] : Block) (r :: o) o := by
  intro n k _ hk
  rcases exists_fuel hk with ⟨k, rfl⟩
  refine finds_peek fun t ht => ?_
  rw [ht, ahead_cons, hr]
  exact finds_take.bind finds_pure

/-- Every derivation is followed by the parser, if what comes behind the
    phrase does not go on with it. -/
theorem parsed_of_derives {x : Phrase} {tree : x.Tree} (h : Derives x tree i o) :
    Fits x o → Parsed x tree i o := by
  induction h with
  | ident ht =>
      intro _
      refine .of_operand (Nat.le_refl _) fun n _ => finds_take.bind ?_
      simp only [ht]
      exact finds_pure
  | int ht hn => exact fun _ => parsed_int ht hn
  | str ht | trueWord ht | falseWord ht =>
      intro _
      refine .of_operand (Nat.le_refl _) fun n _ => finds_take.bind ?_
      simp only [ht]
      exact finds_pure
  | grouped hl he hr ih => exact fun _ => parsed_grouped hl he hr ih
  | array hl hes ih => exact fun _ => parsed_array hl hes ih
  | map hl hps ih => exact fun _ => parsed_map hl hps ih
  | fn hw hl hps hb hbody ihps ihbody => exact fun _ => parsed_fn hw hl hps hb hbody ihps ihbody
  | cond hw he ih => exact fun hfit => parsed_cond hw he hfit.2 ih
  | call hf hl hargs ihf ihargs => exact fun _ => parsed_call hl hargs hf ihf ihargs
  | index hbase hl hkey hr ihbase ihkey =>
      exact fun _ => parsed_index hbase hl hkey hr ihbase ihkey
  | unary ht he ih => exact fun hfit => parsed_unary ht he hfit ih
  | binary hl ht hr ihl ihr => exact fun hfit => parsed_binary hl ht hr hfit ihl ihr
  | up _ ih =>
      -- The same expression on a looser tier: fewer precedences ask for it, and less may follow.
      intro hfit n p hn hcall hp
      exact ih ⟨not_next_binding_lt hfit.1, hfit.2⟩ n p hn hcall
        (Nat.le_trans hp (Tier.level_le_next _))
  | noElse htest hb _ ihtest ihc => exact fun hfit => parsed_noElse htest hb hfit ihtest ihc
  | elseBlock htest hb hc hw hb' _ ihtest ihc ihd =>
      exact fun _ => parsed_elseBlock htest hb hc hw hb' ihtest ihc ihd
  | elseIf htest hb hc hw hw' _ ihtest ihc ihnested =>
      exact fun hfit => parsed_elseIf htest hb hc hw hw' hfit ihtest ihc ihnested
  | itemExpression _ ih => exact fun hfit n k hn _ => finds_before ih rfl hn hfit
  | itemParameter ht => exact fun _ n k _ _ => (finds_expect ht).bind finds_pure
  | listEmpty hr =>
      intro _ n k _ _
      rw [routine_list]
      exact (finds_accept hr).bind finds_pure
  | listItems ha has hr iha ihas =>
      exact fun hfit => parsed_listItems ha has hr hfit iha ihas
  | tailEmpty => exact fun hfit => parsed_tailEmpty hfit
  | tailItem hc ha has iha ihas => exact fun hfit => parsed_tailItem hc ha has hfit iha ihas
  | pairsEmpty hr => exact fun _ => parsed_pairsEmpty hr
  | pairsLast hk hc hv hr ihk ihv => exact fun _ => parsed_pairsLast hk hc hv hr ihk ihv
  | pairsMore hk hc hv hs _ ihk ihv ihps =>
      exact fun _ => parsed_pairsMore hk hc hv hs ihk ihv ihps
  | bind hw ht ha _ ih => exact fun hfit => parsed_bind hw ht ha hfit ih
  | ret hw _ ih => exact fun hfit => parsed_ret hw hfit ih
  | expr he ih => exact fun hfit => parsed_expr he hfit ih
  | finish ho => exact fun _ => parsed_finish ho
  | closed hr => exact fun _ => parsed_closed hr
  | ended hs hc _ ihs ihss => exact fun _ => parsed_ended hs hc ihs ihss
  | adjacent hs hsemi hcont hss ihs ihss =>
      exact fun _ => parsed_adjacent hs hsemi hcont hss ihs ihss

end Parser

end Monkey
