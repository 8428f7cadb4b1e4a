import Monkey.Proofs.Printing.RoundTrip

/-!
# What Recovery Leaves

The program that is left of a text is sound, whatever is wrong with the text.

After an error the parser drops a statement and goes on somewhere behind it,
possibly in the middle of what was meant to be something else, while the
expression around the statement is still being built. Nothing is known then
about how the tree relates to the text. Still no tree comes about that could
not be written in the language, and the reason is local: every part of a tree
was made from a token of the right kind, wherever the token stood.

`Parser.Makes` says this of a parser. It is about values alone, so it holds
through failures and recoveries and needs no account of errors, of fuel or of
what was consumed. The one thing it knows about tokens comes from the lexer:
an identifier is a name and not a keyword. That is a property of each single
token, so it survives any skipping.

## Main definitions

* `Token.Named`: An identifier that has the literal of one.
* `Parser.Makes`: Whatever a parser returns is as it should be.

## Theorems

* `Lexer.readToEnd_named`: The identifiers of a text are names.
* `Parser.Makes.bind`, `Parser.Makes.recovering` and the like: Ways to build a
  parser.
* `Parser.makes_operand`, `Parser.makes_operators` and the like: The routines.
* `Parser.makes_expression`: Expressions are well-formed at every fuel.
* `parse_readsBack`: What is left of a text is well-formed and is read back.
-/

namespace Monkey

open Lexer

/-- A token that is an identifier only if its literal can be one. -/
def Token.Named (t : Token) : Prop :=
  t.kind = .identifier → Lexer.isName t.literal = true

namespace Lexer

theorem munchSign_kind (c : Char) (single double : Kind) (rest : List Char) :
    (munchSign c single double rest).kind = single ∨
      (munchSign c single double rest).kind = double := by
  unfold munchSign
  split
  · exact .inr rfl
  · exact .inl rfl

/-- A word that is an identifier is no keyword. -/
theorem ofKeyword?_of_wordKind {word : List Char} (h : wordKind word = .identifier) :
    Kind.ofKeyword? (String.ofList word) = none := by
  unfold wordKind at h
  cases hfound : Kind.ofKeyword? (String.ofList word) with
  | none => rfl
  | some k =>
      -- No keyword is of the kind of identifiers, so the search has found nothing.
      rw [hfound, Option.getD_some] at h
      have hmem := List.mem_of_find?_eq_some hfound
      rw [h] at hmem
      exact absurd hmem (by decide)

/-- An identifier that is cut off a text is a name. -/
theorem munch_isName (c : Char) (rest : List Char) (h : (munch c rest).kind = .identifier) :
    isName (String.ofList (munch c rest).literal) = true := by
  unfold munch at h ⊢
  split at h
  · rename_i kind hsign
    rw [show kind = Kind.identifier from h] at hsign
    unfold sign? at hsign
    split at hsign <;> cases hsign
  split at h
  · rcases munchSign_kind c .assign .equal rest with hk | hk <;> rw [hk] at h <;> cases h
  split at h
  · rcases munchSign_kind c .bang .notEqual rest with hk | hk <;> rw [hk] at h <;> cases h
  split at h
  · unfold munchString at h
    split at h <;> cases h
  split at h
  · cases h
  split at h
  · -- The only kind of token that is left: a run of characters of a name.
    rename_i hassign hbang hquote hdigit hstart
    simp only [if_neg hassign, if_neg hbang, if_neg hquote, if_neg hdigit, if_pos hstart]
    simp only [munchRun, Lexeme.plain, isName, String.toList_ofList] at h ⊢
    rw [hstart, List.all_takeWhile, ofKeyword?_of_wordKind h]
    rfl
  · cases h

theorem next_named (lx : Lexer) : lx.next.1.Named := by
  intro h
  unfold next at h ⊢
  simp only at h ⊢
  cases hdrop : lx.rest.dropWhile Text.isSeparator with
  | nil =>
      rw [hdrop] at h
      cases h
  | cons c rest =>
      rw [hdrop] at h
      exact munch_isName c rest h

/-- The identifiers of a text are names. -/
theorem readToEnd_named (lx : Lexer) : ∀ t ∈ lx.readToEnd.tokens, t.Named := by
  fun_induction readToEnd lx with
  | case1 lx _ => exact fun t ht => absurd ht List.not_mem_nil
  | case2 lx hfinish behind ih =>
      intro t ht
      rcases List.mem_cons.mp ht with rfl | ht
      · exact next_named lx
      · exact ih t ht

end Lexer

/-- The unread tokens are named. -/
def ParseState.Named (s : ParseState) : Prop :=
  ∀ t ∈ s.rest, t.Named

namespace ParseState

theorem Named.peek {s : ParseState} (h : s.Named) : s.peek.Named := by
  unfold ParseState.peek
  cases hrest : s.rest with
  | nil =>
      intro hkind
      cases hkind
  | cons t ts => exact h t (by rw [hrest]; exact List.mem_cons_self)

/-- Tokens stay named as long as no others are put in front of them. -/
theorem Named.of_suffix {s s' : ParseState} (h : s.Named) (hrest : s'.rest <:+ s.rest) :
    s'.Named :=
  fun t ht => h t (hrest.mem ht)

theorem Named.next {s : ParseState} (h : s.Named) : s.next.Named :=
  h.of_suffix (List.tail_suffix s.rest)

end ParseState

/-- If a parser succeeded then with a value of which something holds, and the
    tokens it left are named however it ended. -/
def Outcome.Sound {α : Type} (outcome : Outcome α) (P : α → Prop) : Prop :=
  match outcome with
  | .ok a s => P a ∧ s.Named
  | .failed _ s => s.Named
  | .exhausted => True

namespace Parser

variable {α β : Type} {p : Parser α} {P : α → Prop} {Q : β → Prop}

/-- Whatever a parser returns from named tokens is as it should be. -/
def Makes (p : Parser α) (P : α → Prop) : Prop :=
  ∀ s : ParseState, s.Named → (p s).Sound P

theorem makes_pure {a : α} (h : P a) : Makes (pure a) P :=
  fun _ hs => ⟨h, hs⟩

theorem makes_fail (e : ParseError) : Makes (fail e) P :=
  fun _ hs => hs

theorem makes_exhausted : Makes exhausted P :=
  fun _ _ => trivial

theorem Makes.bind {f : α → Parser β} (hp : Makes p P) (hf : ∀ a, P a → Makes (f a) Q) :
    Makes (p >>= f) Q := by
  intro s hs
  have hfirst := hp s hs
  simp only [Bind.bind]
  cases hrun : p s with
  | ok a s' =>
      rw [hrun] at hfirst
      exact hf a hfirst.1 s' hfirst.2
  | failed e s' =>
      rw [hrun] at hfirst
      exact hfirst
  | exhausted => trivial

theorem Makes.mono {P' : α → Prop} (hp : Makes p P) (h : ∀ a, P a → P' a) : Makes p P' := by
  intro s hs
  have hsound := hp s hs
  cases hrun : p s with
  | ok a s' =>
      rw [hrun] at hsound
      exact ⟨h a hsound.1, hsound.2⟩
  | failed e s' =>
      rw [hrun] at hsound
      exact hsound
  | exhausted => trivial

theorem makes_peek : Makes peek Token.Named :=
  fun _ hs => ⟨hs.peek, hs⟩

theorem makes_take : Makes take Token.Named :=
  fun _ hs => ⟨hs.peek, hs.next⟩

theorem makes_accept (k : Kind) : Makes (accept k) fun _ => True := by
  intro s hs
  unfold accept
  split
  · exact ⟨trivial, hs.next⟩
  · exact ⟨trivial, hs⟩

theorem makes_expect (k : Kind) : Makes (expect k) fun t => t.kind = k ∧ t.Named := by
  intro s hs
  unfold expect
  split
  · rename_i hk
    exact ⟨⟨hk, hs.peek⟩, hs.next⟩
  · exact hs

theorem Makes.inBlock (hp : Makes p P) : Makes (inBlock p) P := by
  intro s hs
  have hinner := hp { s with openBlocks := s.openBlocks + 1 } hs
  unfold Parser.inBlock
  cases hrun : p { s with openBlocks := s.openBlocks + 1 } with
  | ok a s' =>
      rw [hrun] at hinner
      exact hinner
  | failed e s' =>
      rw [hrun] at hinner
      exact hinner
  | exhausted => trivial

/-- What is skipped after a failure was named as well, and so is the rest. -/
theorem Makes.recovering (hp : Makes p P) :
    Makes (recovering p) fun found => ∀ a ∈ found, P a := by
  intro s hs
  have hinner := hp s hs
  unfold Parser.recovering
  cases hrun : p s with
  | ok a s' =>
      rw [hrun] at hinner
      refine ⟨fun b hb => ?_, hinner.2⟩
      rw [← Option.mem_some_iff.mp hb]
      exact hinner.1
  | failed e s' =>
      rw [hrun] at hinner
      have hrest := (s'.leads_recover e True).rest
      exact ⟨fun b hb => absurd hb (Option.not_mem_none b), hinner.of_suffix hrest⟩
  | exhausted => trivial

theorem makes_commaTail (hp : Makes p P) (n : Nat) :
    Makes (commaTail p n) fun as => ∀ a ∈ as, P a := by
  induction n with
  | zero => exact makes_exhausted
  | succ n ih =>
      refine (makes_accept .comma).bind fun more _ => ?_
      split
      · refine hp.bind fun a ha => ih.bind fun as has => makes_pure ?_
        exact List.forall_mem_cons.mpr ⟨ha, has⟩
      · exact makes_pure fun a ha => absurd ha List.not_mem_nil

theorem makes_listUpTo (hp : Makes p P) (close : Kind) (n : Nat) :
    Makes (listUpTo close p n) fun as => ∀ a ∈ as, P a := by
  refine (makes_accept close).bind fun empty _ => ?_
  split
  · exact makes_pure fun a ha => absurd ha List.not_mem_nil
  · refine hp.bind fun a ha => (makes_commaTail hp n).bind fun as has => ?_
    refine (makes_expect close).bind fun _ _ => makes_pure ?_
    exact List.forall_mem_cons.mpr ⟨ha, has⟩

theorem makes_parameter : Makes parameter fun name => isName name = true :=
  (makes_expect .identifier).bind fun _ ht => makes_pure (ht.2 ht.1)

/-- An integer that was read has no sign. -/
theorem makes_integer (t : Token) : Makes (integer t) Expr.WellFormed := by
  unfold integer
  cases hread : Text.readInteger? t.literal with
  | none => exact makes_fail _
  | some n =>
      refine makes_pure ?_
      unfold Text.readInteger? at hread
      simp only at hread
      split at hread
      · rename_i hle
        rw [← Option.some.inj hread]
        have hback := Int64.toInt_ofNat_of_lt (n := Text.readDecimal t.literal.toList) (by omega)
        simp only [Expr.WellFormed, hback]
        omega
      · exact absurd hread (by simp only [reduceCtorEq, not_false_eq_true])

theorem allWellFormed_of_forall {es : List Expr} (h : ∀ e ∈ es, e.WellFormed) :
    Expr.AllWellFormed es := by
  induction es with
  | nil => trivial
  | cons e es ih =>
      have hall := List.forall_mem_cons.mp h
      exact ⟨hall.1, ih hall.2⟩

/-- A statement that was dropped leaves no gap in a block. -/
theorem wellFormed_toList_append {found : Option Stmt} {ss : Block}
    (hfound : ∀ st ∈ found, st.WellFormed) (hss : Block.WellFormed ss) :
    Block.WellFormed (found.toList ++ ss) := by
  cases found with
  | none => exact hss
  | some st => exact ⟨hfound st rfl, hss⟩

section

variable {self : Precedence → Parser Expr} (hself : ∀ p, Makes (self p) Expr.WellFormed)

include hself

theorem makes_pairs (n : Nat) : Makes (pairsUpToBrace self n) Expr.PairsWellFormed := by
  induction n with
  | zero => exact makes_exhausted
  | succ n ih =>
      refine (makes_accept .rightBrace).bind fun empty _ => ?_
      split
      · exact makes_pure trivial
      refine (hself .lowest).bind fun key hkey => (makes_expect .colon).bind fun _ _ => ?_
      refine (hself .lowest).bind fun value hvalue => makes_peek.bind fun t _ => ?_
      -- With a comma behind the pair or without one, it goes in front of the others.
      split
      · exact ih.bind fun ps hps => makes_pure ⟨hkey, hvalue, hps⟩
      · refine (makes_expect .comma).bind fun _ _ => ?_
        exact ih.bind fun ps hps => makes_pure ⟨hkey, hvalue, hps⟩

theorem makes_bareStatement : Makes (bareStatement self) Stmt.WellFormed := by
  refine makes_peek.bind fun t _ => ?_
  split
  · refine makes_take.bind fun _ _ => (makes_expect .identifier).bind fun name hname => ?_
    refine (makes_expect .assign).bind fun _ _ => (hself .lowest).bind fun value hvalue => ?_
    exact makes_pure ⟨hname.2 hname.1, hvalue⟩
  · refine makes_take.bind fun _ _ => (hself .lowest).bind fun value hvalue => ?_
    exact makes_pure hvalue
  · exact (hself .lowest).bind fun value hvalue => makes_pure hvalue

theorem makes_statement : Makes (statement self) Stmt.WellFormed := by
  refine (makes_bareStatement hself).bind fun st hst => ?_
  exact (makes_accept .semicolon).bind fun _ _ => makes_pure hst

theorem makes_statementsUpToBrace (n : Nat) :
    Makes (statementsUpToBrace self n) Block.WellFormed := by
  induction n with
  | zero => exact makes_exhausted
  | succ n ih =>
      refine makes_peek.bind fun t _ => ?_
      split
      · exact makes_take.bind fun _ _ => makes_pure trivial
      · exact makes_pure trivial
      · refine (makes_statement hself).recovering.bind fun found hfound => ?_
        exact ih.bind fun ss hss => makes_pure (wellFormed_toList_append hfound hss)

theorem makes_block (n : Nat) : Makes (block self n) Block.WellFormed :=
  (makes_statementsUpToBrace hself n).inBlock

theorem makes_conditional (n : Nat) : Makes (conditional self n) Expr.WellFormed := by
  induction n with
  | zero => exact makes_exhausted
  | succ n ih =>
      refine (hself .lowest).bind fun test htest => (makes_expect .leftBrace).bind fun _ _ => ?_
      refine (makes_block hself n).bind fun c hc => (makes_accept .elseWord).bind fun more _ => ?_
      split
      · refine (makes_accept .ifWord).bind fun again _ => ?_
        split
        · exact ih.bind fun nested hnested => makes_pure ⟨htest, hc, hnested, trivial⟩
        · refine (makes_expect .leftBrace).bind fun _ _ => ?_
          exact (makes_block hself n).bind fun d hd => makes_pure ⟨htest, hc, hd⟩
      · exact makes_pure ⟨htest, hc⟩

theorem makes_function (n : Nat) : Makes (function self n) Expr.WellFormed := by
  refine (makes_expect .leftParen).bind fun _ _ => ?_
  refine (makes_listUpTo makes_parameter .rightParen n).bind fun params hparams => ?_
  refine (makes_expect .leftBrace).bind fun _ _ => ?_
  exact (makes_block hself n).bind fun body hbody => makes_pure ⟨hparams, hbody⟩

theorem makes_grouped : Makes (grouped self) Expr.WellFormed :=
  (hself .lowest).bind fun _ he => (makes_expect .rightParen).bind fun _ _ => makes_pure he

theorem makes_arguments (close : Kind) (n : Nat) :
    Makes (listUpTo close (self .lowest) n) Expr.AllWellFormed :=
  (makes_listUpTo (hself .lowest) close n).mono fun _ => allWellFormed_of_forall

theorem makes_operand (n : Nat) : Makes (operand self n) Expr.WellFormed := by
  refine makes_take.bind fun t ht => ?_
  generalize hk : t.kind = k
  split
  case h_1 => exact makes_pure (ht hk)
  case h_2 => exact makes_integer t
  case h_3 | h_4 | h_5 => exact makes_pure trivial
  case h_6 => exact (hself .unary).bind fun e he => makes_pure ⟨.inl rfl, he⟩
  case h_7 => exact (hself .unary).bind fun e he => makes_pure ⟨.inr rfl, he⟩
  case h_8 => exact makes_grouped hself
  case h_9 => exact makes_conditional hself n
  case h_10 => exact makes_function hself n
  case h_11 => exact (makes_arguments hself .rightBracket n).bind fun es hes => makes_pure hes
  case h_12 => exact (makes_pairs hself n).bind fun ps hps => makes_pure hps
  case h_13 => exact makes_fail _

/-- A token that is taken for an operator is one, since all others bind as
    loosely as can be. -/
theorem makes_operator (n : Nat) {p : Precedence} {t : Token} {left : Expr}
    (hp : p < .ofKind t.kind) (hleft : left.WellFormed) :
    Makes (operator self n t left) Expr.WellFormed := by
  unfold operator
  generalize t.kind = k at hp
  split
  · refine (makes_arguments hself .rightParen n).bind fun args hargs => ?_
    exact makes_pure ⟨hleft, hargs⟩
  · refine (hself .lowest).bind fun key hkey => ?_
    exact (makes_expect .rightBracket).bind fun _ _ => makes_pure ⟨hleft, hkey⟩
  · rename_i hparen hbracket
    rcases Grammar.exists_tier hp hparen hbracket with ⟨tier, hmem, -⟩
    have hop : k ∈ binaryKinds := by
      cases tier <;> simp only [Grammar.Tier.operators, List.mem_cons, List.not_mem_nil, or_false,
        binaryKinds] at hmem ⊢ <;> tauto
    exact (hself (.ofKind k)).bind fun right hright => makes_pure ⟨hop, hleft, hright⟩

theorem makes_operators (n : Nat) (p : Precedence) (m : Nat) :
    ∀ left : Expr, left.WellFormed → Makes (operators self n p m left) Expr.WellFormed := by
  induction m with
  | zero => exact fun _ _ => makes_exhausted
  | succ m ih =>
      intro left hleft
      refine makes_peek.bind fun t _ => ?_
      split
      · rename_i hp
        refine makes_take.bind fun _ _ => ?_
        exact (makes_operator hself n hp hleft).bind fun longer hlonger => ih longer hlonger
      · exact makes_pure hleft

end

/-- Whatever the fuel, an expression that is returned is well-formed. -/
theorem makes_expression (n : Nat) : ∀ p, Makes (expression n p) Expr.WellFormed := by
  induction n with
  | zero => exact fun _ => makes_exhausted
  | succ n ih =>
      intro p
      refine (makes_operand ih n).bind fun left hleft => ?_
      exact makes_operators ih n p n left hleft

theorem makes_program {self : Precedence → Parser Expr}
    (hself : ∀ p, Makes (self p) Expr.WellFormed) (n : Nat) :
    Makes (program self n) Block.WellFormed := by
  induction n with
  | zero => exact makes_exhausted
  | succ n ih =>
      refine makes_peek.bind fun t _ => ?_
      split
      · exact makes_pure trivial
      · refine (makes_statement hself).recovering.bind fun found hfound => ?_
        exact ih.bind fun ss hss => makes_pure (wellFormed_toList_append hfound hss)

end Parser

/-- What is left of named tokens is well-formed. -/
theorem parseTokens_wellFormed {tokens : List Token} (h : ∀ t ∈ tokens, t.Named)
    (length : Nat) : Block.WellFormed (parseTokens tokens length).program := by
  have hmakes := Parser.makes_program (Parser.makes_expression (tokens.length + 1))
    (tokens.length + 1) (.start tokens length) h
  unfold parseTokens
  simp only
  cases hrun : Parser.program (Parser.expression (tokens.length + 1)) (tokens.length + 1)
      (.start tokens length) with
  | ok program s =>
      rw [hrun] at hmakes
      exact hmakes.1
  | failed e s => trivial
  | exhausted => trivial

/-- Whatever the text, the program that is left of it can be written in the
    language. Hence its own text is read back without an error, as the same
    program, and printing that program gives the same text once more. -/
theorem parse_readsBack (source : String) :
    Block.WellFormed (parse source).program ∧
      parseStrict (Program.text (parse source).program) = .ok (parse source).program ∧
      (parseStrict (Program.text (parse source).program)).map Program.text
        = .ok (Program.text (parse source).program) := by
  have hwell : Block.WellFormed (parse source).program :=
    parseTokens_wellFormed (readToEnd_named (.ofString source)) _
  have hback := derives_text hwell
  have hstrict := parseStrict_eq_ok hback
  refine ⟨hwell, hstrict, ?_⟩
  rw [hstrict]
  rfl

end Monkey
