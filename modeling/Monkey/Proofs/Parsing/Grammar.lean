import Monkey.Syntax
import Monkey.Text.Decimal

/-!
# The Grammar

What a program is, said without a parser.

`Derives x tree i o` says that the tokens `i` start with a phrase of the kind
`x`, that its tree is `tree`, and that the tokens `o` stand behind it. Both
ends are kept because two rules look at what follows a phrase: statements may
stand side by side without a semicolon only if the second one cannot be taken
for the rest of the first one, and the end of input closes every block that is
open. Spans play no part in it.

Expressions come in tiers, from the equality operators, which bind loosest, to
the primary expressions. A binary expression has a left operand of its own
tier and a right operand of the next one. That is all there is to precedence
and to associating to the left; no rule mentions a binding power.

Phrases that start with an opening token of their own are given without it.
The rules that use them name the token, as a list in brackets and a list in
parentheses differ in nothing else.

## Main definitions

* `Tier`: The tiers of expressions, with `Tier.operators` and `Tier.next`.
* `Phrase`: The kinds of phrases, and `Phrase.Tree`, what they stand for.
* `ahead`: The kind of the token that follows.
* `continuing`: The tokens that go on with an expression.
* `starting`: The tokens with which an expression starts.
* `Derives`: The rules.
* `Phrase.least`: How many tokens a phrase has at least.

## Theorems

* `Derives.lower`: An expression of a tier is one of every looser tier.
* `Derives.length_le`: A phrase has at least as many tokens as its kind asks
  for.
* `Derives.expr_starts`: What an expression can start with.
* `Derives.statement_starts`: What a statement can start with.
-/

namespace Monkey

namespace Grammar

/-- The tiers of expressions, the loosest first. -/
inductive Tier where
  /-- The operators `==` and `!=`. -/
  | equality
  /-- The operators `<` and `>`. -/
  | comparison
  /-- The operators `+` and `-` between operands. -/
  | sum
  /-- The operators `*` and `/`. -/
  | product
  /-- The operators `!` and `-` in front of an operand. -/
  | unary
  /-- Calls and indexes. -/
  | application
  /-- Everything that ends with a token of its own. -/
  | primary
  deriving DecidableEq

namespace Tier

/-- The place of a tier in the order. -/
def level : Tier → Nat
  | equality => 1
  | comparison => 2
  | sum => 3
  | product => 4
  | unary => 5
  | application => 6
  | primary => 7

theorem eq_of_level_eq {a b : Tier} (h : a.level = b.level) : a = b := by
  cases a <;> cases b <;> first | rfl | exact absurd h (by decide)

/-- The tier that binds a little tighter, up to the tightest one. -/
def next : Tier → Tier
  | equality => comparison
  | comparison => sum
  | sum => product
  | product => unary
  | unary => application
  | application => primary
  | primary => primary

theorem level_le_next (tier : Tier) : tier.level ≤ tier.next.level := by
  cases tier <;> decide

/-- The binary operators of a tier. -/
def operators : Tier → List Kind
  | equality => [.equal, .notEqual]
  | comparison => [.less, .greater]
  | sum => [.plus, .minus]
  | product => [.star, .slash]
  | _ => []

end Tier

/-- What the lists of the language consist of. -/
inductive Item where
  /-- An argument of a call or an element of an array. -/
  | expression
  /-- A parameter of a function. -/
  | parameter

/-- What an item stands for. -/
abbrev Item.Tree : Item → Type
  | expression => Expr
  | parameter => String

/-- The kinds of phrases. -/
inductive Phrase where
  /-- An expression of a tier. -/
  | expr (tier : Tier)
  /-- A condition behind its first word. -/
  | conditional
  /-- An item of a list. -/
  | item (x : Item)
  /-- A list behind its opening token, with its closing one. -/
  | list (close : Kind) (x : Item)
  /-- What follows the first item of a list. -/
  | tail (x : Item)
  /-- The pairs of a map behind the opening brace, with the closing one. -/
  | pairs
  /-- A statement without its semicolon. -/
  | statement
  /-- Statements up to the end of input, or behind an opening brace, where a
      closing one ends them too. -/
  | statements (braced : Bool)

/-- What a phrase stands for. -/
abbrev Phrase.Tree : Phrase → Type
  | expr _ => Expr
  | conditional => Expr
  | item x => x.Tree
  | list _ x => List x.Tree
  | tail x => List x.Tree
  | pairs => List (Expr × Expr)
  | statement => Stmt
  | statements _ => Block

/-- The kind of the token that follows. Nothing but the end of input follows
    the last one. -/
def ahead : List Token → Kind
  | [] => .finish
  | t :: _ => t.kind

@[simp] theorem ahead_cons (t : Token) (ts : List Token) : ahead (t :: ts) = t.kind := rfl

/-- The tokens that go on with an expression that stands in front of them. -/
def continuing : List Kind :=
  [.plus, .minus, .star, .slash, .less, .greater, .equal, .notEqual, .leftParen, .leftBracket]

/-- The tokens with which an expression starts. -/
def starting : List Kind :=
  [.identifier, .integer, .string, .trueWord, .falseWord, .bang, .minus, .leftParen, .ifWord,
    .fnWord, .leftBracket, .leftBrace]

/-- The tokens `i` start with a phrase that stands for a tree, and the tokens
    `o` follow it. -/
inductive Derives : (x : Phrase) → x.Tree → List Token → List Token → Prop where
  -- Expressions
  | ident {t : Token} {o : List Token} (ht : t.kind = .identifier) :
    Derives (.expr .primary) (Expr.ident t.literal) (t :: o) o
  | int {t : Token} {n : Int64} {o : List Token} (ht : t.kind = .integer)
    (hn : Text.readInteger? t.literal = some n) :
    Derives (.expr .primary) (Expr.int n) (t :: o) o
  | str {t : Token} {o : List Token} (ht : t.kind = .string) :
    Derives (.expr .primary) (Expr.str t.literal) (t :: o) o
  | trueWord {t : Token} {o : List Token} (ht : t.kind = .trueWord) :
    Derives (.expr .primary) (Expr.bool true) (t :: o) o
  | falseWord {t : Token} {o : List Token} (ht : t.kind = .falseWord) :
    Derives (.expr .primary) (Expr.bool false) (t :: o) o
  | grouped {l r : Token} {e : Expr} {i o : List Token} (hl : l.kind = .leftParen)
    (he : Derives (.expr .equality) e i (r :: o)) (hr : r.kind = .rightParen) :
    Derives (.expr .primary) e (l :: i) o
  | array {l : Token} {es : List Expr} {i o : List Token} (hl : l.kind = .leftBracket)
    (hes : Derives (.list .rightBracket .expression) es i o) :
    Derives (.expr .primary) (Expr.array es) (l :: i) o
  | map {l : Token} {ps : List (Expr × Expr)} {i o : List Token} (hl : l.kind = .leftBrace)
    (hps : Derives .pairs ps i o) : Derives (.expr .primary) (Expr.map ps) (l :: i) o
  | fn {w l b : Token} {ps : List String} {body : Block} {i m o : List Token}
    (hw : w.kind = .fnWord) (hl : l.kind = .leftParen)
    (hps : Derives (.list .rightParen .parameter) ps i (b :: m)) (hb : b.kind = .leftBrace)
    (hbody : Derives (.statements true) body m o) :
    Derives (.expr .primary) (Expr.fn ps body) (w :: l :: i) o
  | cond {w : Token} {e : Expr} {i o : List Token} (hw : w.kind = .ifWord)
    (he : Derives .conditional e i o) : Derives (.expr .primary) e (w :: i) o
  | call {l : Token} {f : Expr} {args : List Expr} {i m o : List Token}
    (hf : Derives (.expr .application) f i (l :: m)) (hl : l.kind = .leftParen)
    (hargs : Derives (.list .rightParen .expression) args m o) :
    Derives (.expr .application) (Expr.call f args) i o
  | index {l r : Token} {base key : Expr} {i m o : List Token}
    (hbase : Derives (.expr .application) base i (l :: m)) (hl : l.kind = .leftBracket)
    (hkey : Derives (.expr .equality) key m (r :: o)) (hr : r.kind = .rightBracket) :
    Derives (.expr .application) (Expr.index base key) i o
  | unary {t : Token} {e : Expr} {i o : List Token} (ht : t.kind = .bang ∨ t.kind = .minus)
    (he : Derives (.expr .unary) e i o) :
    Derives (.expr .unary) (Expr.unary t.kind e) (t :: i) o
  | binary {tier : Tier} {t : Token} {l r : Expr} {i m o : List Token}
    (hl : Derives (.expr tier) l i (t :: m)) (ht : t.kind ∈ tier.operators)
    (hr : Derives (.expr tier.next) r m o) :
    Derives (.expr tier) (Expr.binary t.kind l r) i o
  | up {tier : Tier} {e : Expr} {i o : List Token} (he : Derives (.expr tier.next) e i o) :
    Derives (.expr tier) e i o
  -- Conditions
  | noElse {b : Token} {test : Expr} {c : Block} {i m o : List Token}
    (htest : Derives (.expr .equality) test i (b :: m)) (hb : b.kind = .leftBrace)
    (hc : Derives (.statements true) c m o) :
    Derives .conditional (Expr.cond test c none) i o
  | elseBlock {b w b' : Token} {test : Expr} {c d : Block} {i m m' o : List Token}
    (htest : Derives (.expr .equality) test i (b :: m)) (hb : b.kind = .leftBrace)
    (hc : Derives (.statements true) c m (w :: b' :: m')) (hw : w.kind = .elseWord)
    (hb' : b'.kind = .leftBrace) (hd : Derives (.statements true) d m' o) :
    Derives .conditional (Expr.cond test c (some d)) i o
  | elseIf {b w w' : Token} {test nested : Expr} {c : Block} {i m m' o : List Token}
    (htest : Derives (.expr .equality) test i (b :: m)) (hb : b.kind = .leftBrace)
    (hc : Derives (.statements true) c m (w :: w' :: m')) (hw : w.kind = .elseWord)
    (hw' : w'.kind = .ifWord) (hnested : Derives .conditional nested m' o) :
    Derives .conditional (Expr.cond test c (some [.expr nested])) i o
  -- Lists, which have no comma behind the last item, and maps, which may
  | itemExpression {e : Expr} {i o : List Token} (he : Derives (.expr .equality) e i o) :
    Derives (.item .expression) e i o
  | itemParameter {t : Token} {o : List Token} (ht : t.kind = .identifier) :
    Derives (.item .parameter) t.literal (t :: o) o
  | listEmpty {close : Kind} {x : Item} {r : Token} {o : List Token} (hr : r.kind = close) :
    Derives (.list close x) ([] : List x.Tree) (r :: o) o
  | listItems {close : Kind} {x : Item} {a : x.Tree} {as : List x.Tree} {r : Token}
    {i m o : List Token} (ha : Derives (.item x) a i m) (has : Derives (.tail x) as m (r :: o))
    (hr : r.kind = close) : Derives (.list close x) (a :: as) i o
  | tailEmpty {x : Item} {o : List Token} : Derives (.tail x) ([] : List x.Tree) o o
  | tailItem {x : Item} {a : x.Tree} {as : List x.Tree} {c : Token} {i m o : List Token}
    (hc : c.kind = .comma) (ha : Derives (.item x) a i m) (has : Derives (.tail x) as m o) :
    Derives (.tail x) (a :: as) (c :: i) o
  | pairsEmpty {r : Token} {o : List Token} (hr : r.kind = .rightBrace) :
    Derives .pairs ([] : List (Expr × Expr)) (r :: o) o
  | pairsLast {c r : Token} {k v : Expr} {i m o : List Token}
    (hk : Derives (.expr .equality) k i (c :: m)) (hc : c.kind = .colon)
    (hv : Derives (.expr .equality) v m (r :: o)) (hr : r.kind = .rightBrace) :
    Derives .pairs [(k, v)] i o
  | pairsMore {c s : Token} {k v : Expr} {ps : List (Expr × Expr)} {i m m' o : List Token}
    (hk : Derives (.expr .equality) k i (c :: m)) (hc : c.kind = .colon)
    (hv : Derives (.expr .equality) v m (s :: m')) (hs : s.kind = .comma)
    (hps : Derives .pairs ps m' o) : Derives .pairs ((k, v) :: ps) i o
  -- Statements
  | bind {w t a : Token} {e : Expr} {i o : List Token} (hw : w.kind = .letWord)
    (ht : t.kind = .identifier) (ha : a.kind = .assign)
    (he : Derives (.expr .equality) e i o) :
    Derives .statement (Stmt.bind t.literal e) (w :: t :: a :: i) o
  | ret {w : Token} {e : Expr} {i o : List Token} (hw : w.kind = .returnWord)
    (he : Derives (.expr .equality) e i o) : Derives .statement (Stmt.ret e) (w :: i) o
  | expr {e : Expr} {i o : List Token} (he : Derives (.expr .equality) e i o) :
    Derives .statement (Stmt.expr e) i o
  | finish {braced : Bool} {o : List Token} (ho : ahead o = .finish) :
    Derives (.statements braced) ([] : Block) o o
  | closed {r : Token} {o : List Token} (hr : r.kind = .rightBrace) :
    Derives (.statements true) ([] : Block) (r :: o) o
  | ended {braced : Bool} {c : Token} {s : Stmt} {ss : Block} {i m o : List Token}
    (hs : Derives .statement s i (c :: m)) (hc : c.kind = .semicolon)
    (hss : Derives (.statements braced) ss m o) :
    Derives (.statements braced) (s :: ss : Block) i o
  | adjacent {braced : Bool} {s : Stmt} {ss : Block} {i m o : List Token}
    (hs : Derives .statement s i m) (hsemi : ahead m ≠ .semicolon)
    (hcont : ahead m ∉ continuing) (hss : Derives (.statements braced) ss m o) :
    Derives (.statements braced) (s :: ss : Block) i o

/-- How many tokens a phrase has at least. -/
def Phrase.least : Phrase → Nat
  | tail _ => 0
  | statements _ => 0
  | _ => 1

namespace Derives

/-- An expression of a tier is one of every looser tier. -/
theorem lower {tier loose : Tier} {e : Expr} {i o : List Token}
    (h : Derives (.expr tier) e i o) (hle : loose.level ≤ tier.level) :
    Derives (.expr loose) e i o := by
  -- Going down from the tier, each tier on the way is reached by one use of the rule.
  have climb : ∀ (n : Nat) (loose : Tier), loose.level + n = tier.level →
      Derives (.expr loose) e i o := by
    intro n
    induction n with
    | zero =>
        intro loose hn
        rw [Tier.eq_of_level_eq hn]
        exact h
    | succ n ih =>
        intro loose hn
        refine up (ih loose.next ?_)
        cases loose <;> cases tier <;> simp only [Tier.level, Tier.next] at hn ⊢ <;> omega
  exact climb (tier.level - loose.level) loose (by omega)

/-- A phrase has as many tokens as it has at least, and what stands behind it
    is what remains of the text. -/
theorem length_le {x : Phrase} {tree : x.Tree} {i o : List Token} (h : Derives x tree i o) :
    o.length + x.least ≤ i.length := by
  -- Every rule takes the tokens that it names, and its phrases take their own.
  induction h <;> simp only [Phrase.least, List.length_cons] at * <;> omega

/-- What the rules say about the first token of a phrase, as far as a single
    induction yields it. -/
theorem starts {x : Phrase} {tree : x.Tree} {i o : List Token} (h : Derives x tree i o) :
    match x with
    | .expr _ => ahead i ∈ starting
    | _ => True := by
  induction h with
  | ident ht | str ht | trueWord ht | falseWord ht | int ht _ =>
      simp only [ahead_cons, ht]
      decide
  | grouped hl _ _ _ | array hl _ _ | map hl _ _ | fn hl _ _ _ _ _ _ | cond hl _ _ =>
      simp only [ahead_cons, hl]
      decide
  | unary ht _ _ =>
      rcases ht with ht | ht <;> simp only [ahead_cons, ht] <;> decide
  | call _ _ _ ih _ => exact ih
  | index _ _ _ _ ih _ => exact ih
  | binary _ _ _ ih _ => exact ih
  | up _ ih => exact ih
  | _ => trivial

theorem expr_starts {tier : Tier} {e : Expr} {i o : List Token}
    (h : Derives (.expr tier) e i o) : ahead i ∈ starting :=
  h.starts

theorem item_starts {x : Item} {a : x.Tree} {i o : List Token}
    (h : Derives (.item x) a i o) : ahead i ∈ starting := by
  cases h with
  | itemExpression he => exact he.expr_starts
  | itemParameter ht =>
      simp only [ahead_cons, ht]
      decide

theorem statement_starts {s : Stmt} {i o : List Token}
    (h : Derives .statement s i o) : ahead i ∈ .letWord :: .returnWord :: starting := by
  cases h with
  | bind hw _ _ _ | ret hw _ =>
      simp only [ahead_cons, hw]
      decide
  | expr he => exact List.mem_cons_of_mem _ (List.mem_cons_of_mem _ he.expr_starts)

/-- A closing brace where a pair could start ends the map. -/
theorem pairs_of_brace {r : Token} {ps : List (Expr × Expr)} {i o : List Token}
    (h : Derives .pairs ps (r :: i) o) (hr : r.kind = .rightBrace) : ps = [] ∧ o = i := by
  cases h with
  | pairsEmpty _ => exact ⟨rfl, rfl⟩
  | pairsLast hk _ _ _ | pairsMore hk _ _ _ _ =>
      have hstart := hk.expr_starts
      rw [ahead_cons, hr] at hstart
      exact absurd hstart (by decide)

end Derives

end Grammar

end Monkey
