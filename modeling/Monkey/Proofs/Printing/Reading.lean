import Monkey.Proofs.Parsing.Grammar
import Monkey.Proofs.Printing.Spelling

/-!
# The Grammar of Texts

The rules of the grammar with text in place of tokens.

A text is not a list of tokens until it has been read to its end, and where
its tokens stand depends on where it stands itself. `Grammar.Covers` therefore
compares two texts, the second one a part of the first that was left over, and
leaves open where they stand: the tokens of the first text start with a
phrase, and those of the second one follow it.

Each rule of the grammar holds of texts too. In such a rule a token of the
grammar has become a text that spells it, so the pieces of a composed text are
matched with the rule from the outside in, and no byte is ever counted.

## Main definitions

* `Grammar.Covers`: A text starts with a phrase.

## Theorems

* `Grammar.Covers.blank`: A blank in front of a phrase.
* `Grammar.Covers.lower`, `Grammar.Covers.loosest`: An expression of a tier is one
  of every looser tier.
* The rules of the grammar, under their names.
-/

namespace Monkey

open Lexer

namespace Grammar

/-- Wherever the first text stands, its tokens start with a phrase, and the
    tokens of the second text follow. -/
def Covers (x : Phrase) (tree : x.Tree) (i o : List Char) : Prop :=
  ∀ k, ∃ k', Derives x tree (tokensAt k i) (tokensAt k' o)

namespace Covers

variable {i m m₁ m₂ m₃ m₄ o : List Char} {l₁ l₂ l₃ l₄ : String} {braced : Bool} {tier : Tier}

theorem blank {x : Phrase} {tree : x.Tree} (h : Covers x tree i o) :
    Covers x tree (' ' :: i) o := by
  intro k
  rw [tokensAt_separator (by decide)]
  exact h _

theorem lower {e : Expr} {loose : Tier} (h : Covers (.expr tier) e i o)
    (hle : loose.level ≤ tier.level) : Covers (.expr loose) e i o := by
  intro k
  rcases h k with ⟨k', h⟩
  exact ⟨k', h.lower hle⟩

/-- An expression of any tier can stand where any expression can. -/
theorem loosest {e : Expr} (h : Covers (.expr tier) e i o) : Covers (.expr .equality) e i o :=
  h.lower (by cases tier <;> decide)

theorem ident {name : String} (ht : Spells i .identifier name o) :
    Covers (.expr .primary) (Expr.ident name) i o := by
  intro k
  rcases ht k with ⟨t, k', hk, rfl, h⟩
  rw [h]
  exact ⟨k', .ident hk⟩

theorem int {n : Int64} (ht : Spells i .integer l₁ o) (hn : Text.readInteger? l₁ = some n) :
    Covers (.expr .primary) (Expr.int n) i o := by
  intro k
  rcases ht k with ⟨t, k', hk, rfl, h⟩
  rw [h]
  exact ⟨k', .int hk hn⟩

theorem str {contents : String} (ht : Spells i .string contents o) :
    Covers (.expr .primary) (Expr.str contents) i o := by
  intro k
  rcases ht k with ⟨t, k', hk, rfl, h⟩
  rw [h]
  exact ⟨k', .str hk⟩

theorem truth {b : Bool} (ht : Spells i (if b then .trueWord else .falseWord) l₁ o) :
    Covers (.expr .primary) (Expr.bool b) i o := by
  intro k
  rcases ht k with ⟨t, k', hk, -, h⟩
  rw [h]
  cases b with
  | true => exact ⟨k', .trueWord hk⟩
  | false => exact ⟨k', .falseWord hk⟩

theorem grouped {e : Expr} (hl : Spells i .leftParen l₁ m) (he : Covers (.expr .equality) e m m₁)
    (hr : Spells m₁ .rightParen l₂ o) : Covers (.expr .primary) e i o := by
  intro k
  -- Each piece stands where the one in front of it ended.
  rcases hl k with ⟨l, k₁, hl, -, h₁⟩
  rcases he k₁ with ⟨k₂, he⟩
  rcases hr k₂ with ⟨r, k₃, hr, -, h₃⟩
  rw [h₃] at he
  rw [h₁]
  exact ⟨k₃, .grouped hl he hr⟩

theorem array {es : List Expr} (hl : Spells i .leftBracket l₁ m)
    (hes : Covers (.list .rightBracket .expression) es m o) :
    Covers (.expr .primary) (Expr.array es) i o := by
  intro k
  rcases hl k with ⟨l, k₁, hl, -, h₁⟩
  rcases hes k₁ with ⟨k₂, hes⟩
  rw [h₁]
  exact ⟨k₂, .array hl hes⟩

theorem map {ps : List (Expr × Expr)} (hl : Spells i .leftBrace l₁ m)
    (hps : Covers .pairs ps m o) : Covers (.expr .primary) (Expr.map ps) i o := by
  intro k
  rcases hl k with ⟨l, k₁, hl, -, h₁⟩
  rcases hps k₁ with ⟨k₂, hps⟩
  rw [h₁]
  exact ⟨k₂, .map hl hps⟩

theorem fn {ps : List String} {body : Block} (hw : Spells i .fnWord l₁ m)
    (hl : Spells m .leftParen l₂ m₁) (hps : Covers (.list .rightParen .parameter) ps m₁ m₂)
    (hb : Spells m₂ .leftBrace l₃ m₃) (hbody : Covers (.statements true) body m₃ o) :
    Covers (.expr .primary) (Expr.fn ps body) i o := by
  intro k
  rcases hw k with ⟨w, k₁, hw, -, h₁⟩
  rcases hl k₁ with ⟨l, k₂, hl, -, h₂⟩
  rcases hps k₂ with ⟨k₃, hps⟩
  rcases hb k₃ with ⟨b, k₄, hb, -, h₄⟩
  rcases hbody k₄ with ⟨k₅, hbody⟩
  rw [h₄] at hps
  rw [h₁, h₂]
  exact ⟨k₅, .fn hw hl hps hb hbody⟩

theorem noElse {test : Expr} {c : Block} (hw : Spells i .ifWord l₁ m)
    (htest : Covers (.expr .equality) test m m₁) (hb : Spells m₁ .leftBrace l₂ m₂)
    (hc : Covers (.statements true) c m₂ o) :
    Covers (.expr .primary) (Expr.cond test c none) i o := by
  intro k
  rcases hw k with ⟨w, k₁, hw, -, h₁⟩
  rcases htest k₁ with ⟨k₂, htest⟩
  rcases hb k₂ with ⟨b, k₃, hb, -, h₃⟩
  rcases hc k₃ with ⟨k₄, hc⟩
  rw [h₃] at htest
  rw [h₁]
  exact ⟨k₄, .cond hw (.noElse htest hb hc)⟩

theorem elseBlock {test : Expr} {c d : Block} (hw : Spells i .ifWord l₁ m)
    (htest : Covers (.expr .equality) test m m₁) (hb : Spells m₁ .leftBrace l₂ m₂)
    (hc : Covers (.statements true) c m₂ m₃) (hw' : Spells m₃ .elseWord l₃ m₄) {m₅ : List Char}
    (hb' : Spells m₄ .leftBrace l₄ m₅) (hd : Covers (.statements true) d m₅ o) :
    Covers (.expr .primary) (Expr.cond test c (some d)) i o := by
  intro k
  rcases hw k with ⟨w, k₁, hw, -, h₁⟩
  rcases htest k₁ with ⟨k₂, htest⟩
  rcases hb k₂ with ⟨b, k₃, hb, -, h₃⟩
  rcases hc k₃ with ⟨k₄, hc⟩
  rcases hw' k₄ with ⟨w', k₅, hw', -, h₅⟩
  rcases hb' k₅ with ⟨b', k₆, hb', -, h₆⟩
  rcases hd k₆ with ⟨k₇, hd⟩
  rw [h₃] at htest
  rw [h₅, h₆] at hc
  rw [h₁]
  exact ⟨k₇, .cond hw (.elseBlock htest hb hc hw' hb' hd)⟩

theorem call {f : Expr} {args : List Expr} (hf : Covers (.expr .application) f i m)
    (hl : Spells m .leftParen l₁ m₁) (hargs : Covers (.list .rightParen .expression) args m₁ o) :
    Covers (.expr .application) (Expr.call f args) i o := by
  intro k
  rcases hf k with ⟨k₁, hf⟩
  rcases hl k₁ with ⟨l, k₂, hl, -, h₂⟩
  rcases hargs k₂ with ⟨k₃, hargs⟩
  rw [h₂] at hf
  exact ⟨k₃, .call hf hl hargs⟩

theorem index {base key : Expr} (hbase : Covers (.expr .application) base i m)
    (hl : Spells m .leftBracket l₁ m₁) (hkey : Covers (.expr .equality) key m₁ m₂)
    (hr : Spells m₂ .rightBracket l₂ o) :
    Covers (.expr .application) (Expr.index base key) i o := by
  intro k
  rcases hbase k with ⟨k₁, hbase⟩
  rcases hl k₁ with ⟨l, k₂, hl, -, h₂⟩
  rcases hkey k₂ with ⟨k₃, hkey⟩
  rcases hr k₃ with ⟨r, k₄, hr, -, h₄⟩
  rw [h₂] at hbase
  rw [h₄] at hkey
  exact ⟨k₄, .index hbase hl hkey hr⟩

theorem unary {op : Kind} {e : Expr} (ht : Spells i op l₁ m) (hop : op = .bang ∨ op = .minus)
    (he : Covers (.expr .unary) e m o) : Covers (.expr .unary) (Expr.unary op e) i o := by
  intro k
  rcases ht k with ⟨t, k₁, rfl, -, h₁⟩
  rcases he k₁ with ⟨k₂, he⟩
  rw [h₁]
  exact ⟨k₂, .unary hop he⟩

theorem binary {op : Kind} {l r : Expr} (hl : Covers (.expr tier) l i m)
    (ht : Spells m op l₁ m₁) (hop : op ∈ tier.operators) (hr : Covers (.expr tier.next) r m₁ o) :
    Covers (.expr tier) (Expr.binary op l r) i o := by
  intro k
  rcases hl k with ⟨k₁, hl⟩
  rcases ht k₁ with ⟨t, k₂, rfl, -, h₂⟩
  rcases hr k₂ with ⟨k₃, hr⟩
  rw [h₂] at hl
  exact ⟨k₃, .binary hl hop hr⟩

theorem itemExpression {e : Expr} (he : Covers (.expr .equality) e i o) :
    Covers (.item .expression) e i o := by
  intro k
  rcases he k with ⟨k', he⟩
  exact ⟨k', .itemExpression he⟩

theorem itemParameter {name : String} (ht : Spells i .identifier name o) :
    Covers (.item .parameter) name i o := by
  intro k
  rcases ht k with ⟨t, k', hk, rfl, h⟩
  rw [h]
  exact ⟨k', .itemParameter hk⟩

theorem listEmpty {close : Kind} {x : Item} (hr : Spells i close l₁ o) :
    Covers (.list close x) ([] : List x.Tree) i o := by
  intro k
  rcases hr k with ⟨r, k', hk, -, h⟩
  rw [h]
  exact ⟨k', .listEmpty hk⟩

theorem listItems {close : Kind} {x : Item} {a : x.Tree} {as : List x.Tree}
    (ha : Covers (.item x) a i m) (has : Covers (.tail x) as m m₁) (hr : Spells m₁ close l₁ o) :
    Covers (.list close x) (a :: as) i o := by
  intro k
  rcases ha k with ⟨k₁, ha⟩
  rcases has k₁ with ⟨k₂, has⟩
  rcases hr k₂ with ⟨r, k₃, hr, -, h₃⟩
  rw [h₃] at has
  exact ⟨k₃, .listItems ha has hr⟩

theorem tailEmpty {x : Item} : Covers (.tail x) ([] : List x.Tree) o o :=
  fun k => ⟨k, .tailEmpty⟩

theorem tailItem {x : Item} {a : x.Tree} {as : List x.Tree} (hc : Spells i .comma l₁ m)
    (ha : Covers (.item x) a m m₁) (has : Covers (.tail x) as m₁ o) :
    Covers (.tail x) (a :: as) i o := by
  intro k
  rcases hc k with ⟨c, k₁, hc, -, h₁⟩
  rcases ha k₁ with ⟨k₂, ha⟩
  rcases has k₂ with ⟨k₃, has⟩
  rw [h₁]
  exact ⟨k₃, .tailItem hc ha has⟩

theorem pairsEmpty (hr : Spells i .rightBrace l₁ o) :
    Covers .pairs ([] : List (Expr × Expr)) i o := by
  intro k
  rcases hr k with ⟨r, k', hk, -, h⟩
  rw [h]
  exact ⟨k', .pairsEmpty hk⟩

theorem pairsLast {key value : Expr} (hk : Covers (.expr .equality) key i m)
    (hc : Spells m .colon l₁ m₁) (hv : Covers (.expr .equality) value m₁ m₂)
    (hr : Spells m₂ .rightBrace l₂ o) : Covers .pairs [(key, value)] i o := by
  intro k
  rcases hk k with ⟨k₁, hk⟩
  rcases hc k₁ with ⟨c, k₂, hc, -, h₂⟩
  rcases hv k₂ with ⟨k₃, hv⟩
  rcases hr k₃ with ⟨r, k₄, hr, -, h₄⟩
  rw [h₂] at hk
  rw [h₄] at hv
  exact ⟨k₄, .pairsLast hk hc hv hr⟩

theorem pairsMore {key value : Expr} {ps : List (Expr × Expr)}
    (hk : Covers (.expr .equality) key i m) (hc : Spells m .colon l₁ m₁)
    (hv : Covers (.expr .equality) value m₁ m₂) (hs : Spells m₂ .comma l₂ m₃)
    (hps : Covers .pairs ps m₃ o) : Covers .pairs ((key, value) :: ps) i o := by
  intro k
  rcases hk k with ⟨k₁, hk⟩
  rcases hc k₁ with ⟨c, k₂, hc, -, h₂⟩
  rcases hv k₂ with ⟨k₃, hv⟩
  rcases hs k₃ with ⟨s, k₄, hs, -, h₄⟩
  rcases hps k₄ with ⟨k₅, hps⟩
  rw [h₂] at hk
  rw [h₄] at hv
  exact ⟨k₅, .pairsMore hk hc hv hs hps⟩

theorem bind {name : String} {e : Expr} (hw : Spells i .letWord l₁ m)
    (ht : Spells m .identifier name m₁) (ha : Spells m₁ .assign l₂ m₂)
    (he : Covers (.expr .equality) e m₂ o) : Covers .statement (Stmt.bind name e) i o := by
  intro k
  rcases hw k with ⟨w, k₁, hw, -, h₁⟩
  rcases ht k₁ with ⟨t, k₂, hname, rfl, h₂⟩
  rcases ha k₂ with ⟨a, k₃, ha, -, h₃⟩
  rcases he k₃ with ⟨k₄, he⟩
  rw [h₁, h₂, h₃]
  exact ⟨k₄, .bind hw hname ha he⟩

theorem ret {e : Expr} (hw : Spells i .returnWord l₁ m) (he : Covers (.expr .equality) e m o) :
    Covers .statement (Stmt.ret e) i o := by
  intro k
  rcases hw k with ⟨w, k₁, hw, -, h₁⟩
  rcases he k₁ with ⟨k₂, he⟩
  rw [h₁]
  exact ⟨k₂, .ret hw he⟩

theorem expr {e : Expr} (he : Covers (.expr .equality) e i o) :
    Covers .statement (Stmt.expr e) i o := by
  intro k
  rcases he k with ⟨k', he⟩
  exact ⟨k', .expr he⟩

theorem finish : Covers (.statements braced) ([] : Block) [] [] := by
  intro k
  refine ⟨k, .finish ?_⟩
  rw [tokensAt_nil]
  rfl

theorem closed (hr : Spells i .rightBrace l₁ o) :
    Covers (.statements true) ([] : Block) i o := by
  intro k
  rcases hr k with ⟨r, k', hk, -, h⟩
  rw [h]
  exact ⟨k', .closed hk⟩

theorem ended {s : Stmt} {ss : Block} (hs : Covers .statement s i m)
    (hc : Spells m .semicolon l₁ m₁) (hss : Covers (.statements braced) ss m₁ o) :
    Covers (.statements braced) (s :: ss : Block) i o := by
  intro k
  rcases hs k with ⟨k₁, hs⟩
  rcases hc k₁ with ⟨c, k₂, hc, -, h₂⟩
  rcases hss k₂ with ⟨k₃, hss⟩
  rw [h₂] at hs
  exact ⟨k₃, .ended hs hc hss⟩

/-- The last statement has no semicolon. What follows it has to end the
    statements. -/
theorem last {s : Stmt} (hs : Covers .statement s i m)
    (hend : Covers (.statements braced) ([] : Block) m o) :
    Covers (.statements braced) ([s] : Block) i o := by
  intro k
  rcases hs k with ⟨k₁, hs⟩
  rcases hend k₁ with ⟨k₂, hend⟩
  have hahead : ahead (tokensAt k₁ m) = .finish ∨ ahead (tokensAt k₁ m) = .rightBrace := by
    generalize htokens : tokensAt k₁ m = ts at hend
    cases hend with
    | finish ho => exact .inl ho
    | closed hr => exact .inr hr
  -- What ends the statements is neither a semicolon nor an operator.
  refine ⟨k₂, .adjacent hs ?_ ?_ hend⟩ <;>
    rcases hahead with h | h <;> rw [h] <;> decide

end Covers

end Grammar

end Monkey
