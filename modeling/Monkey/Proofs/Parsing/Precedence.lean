import Monkey.Parser
import Monkey.Proofs.Parsing.Grammar

/-!
# Precedences and Tiers

Two ways to say how tightly an operator binds.

The grammar has tiers, each with its operators, and an expression of one tier
is built from operands of fixed tiers. The parser has precedences, which it
compares: an operator is taken if it binds tighter than what it is read
behind. Here the two are related once and for all, so that neither direction
of the correspondence has to look at single operators again.

A precedence stands for the tier of what is read at it. A tier stands for the
precedence of its operators, and an expression of that tier may be followed by
whatever does not bind tighter.

## Main definitions

* `Precedence.tier`: The tier of the expressions that are read at a
  precedence.
* `Tier.binding`: How tightly the operators of a tier bind.

## Theorems

* `ParseState.peek_kind`: The parser and the grammar look at the same token.
* `exists_tier`: A binary operator that is taken belongs to a tier.
* `binding_of_mem`, `lt_ofKind_of_mem`: An operator of a tier is taken.
* `level_le_of_binding`: A tier that a token may follow is tight enough.
* `not_mem_continuing`: An expression ends in front of a token that does not
  go on with it.
-/

namespace Monkey

open Grammar

theorem ParseState.peek_kind (s : ParseState) : s.peek.kind = ahead s.rest := by
  unfold ParseState.peek ahead
  cases s.rest <;> rfl

/-- The tier of the expressions that are read at a precedence. Calls and
    indexes have no operand behind them, so nothing is read at theirs. -/
def Precedence.tier : Precedence → Tier
  | lowest => .equality
  | equality => .comparison
  | comparison => .sum
  | sum => .product
  | product => .unary
  | unary => .unary
  | call => .unary

namespace Grammar

/-- How tightly the operators of a tier bind. -/
def Tier.binding : Tier → Precedence
  | equality => .equality
  | comparison => .comparison
  | sum => .sum
  | product => .product
  | unary => .unary
  | application => .call
  | primary => .call

theorem binding_of_mem {tier : Tier} {k : Kind} (h : k ∈ tier.operators) :
    tier.binding = .ofKind k ∧ (Precedence.ofKind k).tier = tier.next := by
  -- Two finite tables, one of the grammar and one of the parser, compared entry by entry.
  cases tier <;> cases k <;> first | exact ⟨rfl, rfl⟩ | exact absurd h (by decide)

/-- An operator of a tier is taken wherever an expression of the tier is
    wanted. -/
theorem lt_ofKind_of_mem {tier : Tier} {k : Kind} {p : Precedence} (h : k ∈ tier.operators)
    (hle : p.tier.level ≤ tier.level) : p < .ofKind k := by
  rw [← (binding_of_mem h).1]
  cases tier <;> cases p <;>
    first | decide | exact absurd hle (by decide) | exact absurd h List.not_mem_nil

/-- A binary operator that is taken is one of a tier, and that tier is tight
    enough for what is read. -/
theorem exists_tier {p : Precedence} {k : Kind} (hp : p < .ofKind k) (hl : k ≠ .leftParen)
    (hb : k ≠ .leftBracket) : ∃ tier : Tier, k ∈ tier.operators ∧ p.tier.level ≤ tier.level := by
  -- To be taken at a precedence is to bind tighter than the tier just below what is read.
  have htight : ∀ tier : Tier, p < tier.binding → tier ≠ .application → tier ≠ .primary →
      p.tier.level ≤ tier.level := by
    intro tier h ha hp
    cases tier <;> cases p <;>
      first | decide | exact absurd rfl ha | exact absurd rfl hp | exact absurd h (by decide)
  cases k with
  | equal | notEqual => exact ⟨.equality, by decide, htight .equality hp (by decide) (by decide)⟩
  | less | greater =>
      exact ⟨.comparison, by decide, htight .comparison hp (by decide) (by decide)⟩
  | plus | minus => exact ⟨.sum, by decide, htight .sum hp (by decide) (by decide)⟩
  | star | slash => exact ⟨.product, by decide, htight .product hp (by decide) (by decide)⟩
  | leftParen => exact absurd rfl hl
  | leftBracket => exact absurd rfl hb
  | _ => exact absurd hp (Nat.not_lt_zero _)

/-- A tier whose operators bind no looser than those of another one is at
    least as tight. Above the applications there are no operators. -/
theorem level_le_of_binding {a b : Tier} (ha : a ≠ .primary) (h : ¬b.binding < a.binding) :
    a.level ≤ b.level := by
  cases a <;> cases b <;> first | decide | exact absurd rfl ha | exact absurd (by decide) h

/-- What may follow an expression of a tier may follow one of the next
    tier. -/
theorem not_next_binding_lt {tier : Tier} {p : Precedence} (h : ¬tier.binding < p) :
    ¬tier.next.binding < p := by
  cases tier <;> cases p <;> first | decide | exact absurd (by decide) h

/-- A token that does not go on with an expression is none of those that
    do. -/
theorem not_mem_continuing {k : Kind} (h : ¬Precedence.lowest < .ofKind k) : k ∉ continuing := by
  cases k <;> first | decide | exact absurd (by decide) h

theorem not_lowest_lt {k : Kind} (h : k ∉ continuing) : ¬Precedence.lowest < .ofKind k := by
  cases k <;> first | decide | exact absurd (by decide) h

end Grammar

end Monkey
