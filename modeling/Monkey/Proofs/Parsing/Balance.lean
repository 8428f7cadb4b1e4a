import Monkey.Proofs.Parsing.Grammar

/-!
# Braces That Are Closed

A phrase whose braces are balanced does not look at the end of input.

The end of input closes every block that is open, so a phrase can be derived
from the end of a text although braces of it were never closed. Such a phrase
is not one any more when further tokens follow. There is a way to tell without
looking at the derivation, which is to count braces: every block that is
closed by the end of input leaves one more open than there would be otherwise.
No phrase leaves fewer open than its kind says (`Derives.excess_le`), and one
that leaves exactly as many is a phrase in front of any tokens at all
(`Derives.extend`).

## Main definitions

* `Kind.nesting`, `excess`: How many braces are opened and not closed.
* `Phrase.due`: How many braces a phrase closes that it does not open.

## Theorems

* `excess_eq`: The excess as a difference of numbers of tokens.
* `Derives.excess_le`: No brace is closed that a phrase does not close.
* `Derives.extend`: A phrase with balanced braces in front of further tokens.
-/

namespace Monkey

/-- How many braces a token opens. -/
def Kind.nesting : Kind → Int
  | leftBrace => 1
  | rightBrace => -1
  | _ => 0

namespace Grammar

/-- How many more braces are opened than closed. -/
def excess : List Token → Int
  | [] => 0
  | t :: ts => t.kind.nesting + excess ts

theorem excess_eq (ts : List Token) :
    excess ts = ts.countP (fun t => t.kind = .leftBrace)
      - ts.countP (fun t => t.kind = .rightBrace) := by
  induction ts with
  | nil => rfl
  | cons t ts ih =>
      rw [excess, ih, List.countP_cons, List.countP_cons]
      generalize t.kind = k
      cases k <;> simp only [Kind.nesting, decide_true, if_true, reduceCtorEq, decide_false,
        Bool.false_eq_true, if_false] <;> omega

/-- How many braces a phrase closes that stand in front of it. -/
def Phrase.due : Phrase → Int
  | list close _ => -close.nesting
  | pairs => 1
  | statements true => 1
  | _ => 0

theorem nesting_operator {tier : Tier} {k : Kind} (h : k ∈ tier.operators) : k.nesting = 0 := by
  cases tier <;> simp only [Tier.operators, List.mem_cons, List.not_mem_nil, or_false] at h
  all_goals rcases h with rfl | rfl <;> rfl

theorem nesting_sign {k : Kind} (h : k = .bang ∨ k = .minus) : k.nesting = 0 := by
  rcases h with rfl | rfl <;> rfl

namespace Derives

/-- A phrase closes the braces that it has to close, and of its own braces no
    more than it opens. -/
theorem excess_le {x : Phrase} {tree : x.Tree} {i o : List Token} (h : Derives x tree i o) :
    excess o ≤ excess i + x.due := by
  induction h with
  | unary ht _ ih =>
      have hsign := nesting_sign ht
      simp only [excess, Phrase.due] at ih ⊢
      omega
  | binary _ ht _ ihl ihr =>
      have hoperator := nesting_operator ht
      simp only [excess, Phrase.due] at ihl ihr ⊢
      omega
  | @finish braced o ho => cases braced <;> simp only [Phrase.due] <;> omega
  | @ended braced c s ss i m o _ hc _ ihs ihss =>
      simp only [excess, hc, Kind.nesting, Phrase.due] at ihs
      omega
  | @adjacent braced s ss i m o _ _ _ _ ihs ihss =>
      simp only [Phrase.due] at ihs
      omega
  | _ =>
      simp only [excess, Phrase.due, Kind.nesting, *] at *
      omega

/-- A phrase that closes exactly what it has to close is one in front of any
    tokens: no block in it was closed by the end of input. -/
theorem extend {x : Phrase} {tree : x.Tree} {i o : List Token} (h : Derives x tree i o)
    (hx : x ≠ .statements false) (heq : excess o = excess i + x.due) (tail : List Token) :
    Derives x tree (i ++ tail) (o ++ tail) := by
  -- In each rule the parts close no more than they have to, so each closes just that.
  induction h with
  | ident ht => exact .ident ht
  | int ht hn => exact .int ht hn
  | str ht => exact .str ht
  | trueWord ht => exact .trueWord ht
  | falseWord ht => exact .falseWord ht
  | grouped hl _ hr ih =>
      simp only [excess, Phrase.due, Kind.nesting, hl, hr] at heq ih
      exact .grouped hl (ih nofun (by omega)) hr
  | array hl _ ih =>
      simp only [excess, Phrase.due, Kind.nesting, hl] at heq ih
      exact .array hl (ih nofun (by omega))
  | map hl _ ih =>
      simp only [excess, Phrase.due, Kind.nesting, hl] at heq ih
      exact .map hl (ih nofun (by omega))
  | fn hw hl hps hb hbody ihps ihbody =>
      have hle := hps.excess_le
      have hle' := hbody.excess_le
      simp only [excess, Phrase.due, Kind.nesting, hw, hl, hb] at heq hle hle' ihps ihbody
      exact .fn hw hl (ihps nofun (by omega)) hb (ihbody nofun (by omega))
  | cond hw _ ih =>
      simp only [excess, Phrase.due, Kind.nesting, hw] at heq ih
      exact .cond hw (ih nofun (by omega))
  | call hf hl hargs ihf ihargs =>
      have hle := hf.excess_le
      have hle' := hargs.excess_le
      simp only [excess, Phrase.due, Kind.nesting, hl] at heq hle hle' ihf ihargs
      exact .call (ihf nofun (by omega)) hl (ihargs nofun (by omega))
  | index hbase hl hkey hr ihbase ihkey =>
      have hle := hbase.excess_le
      have hle' := hkey.excess_le
      simp only [excess, Phrase.due, Kind.nesting, hl, hr] at heq hle hle' ihbase ihkey
      exact .index (ihbase nofun (by omega)) hl (ihkey nofun (by omega)) hr
  | unary ht _ ih =>
      have hsign := nesting_sign ht
      simp only [excess, Phrase.due] at heq ih
      exact .unary ht (ih nofun (by omega))
  | binary hl ht hr ihl ihr =>
      have hoperator := nesting_operator ht
      have hle := hl.excess_le
      have hle' := hr.excess_le
      simp only [excess, Phrase.due] at heq hle hle' ihl ihr
      exact .binary (ihl nofun (by omega)) ht (ihr nofun (by omega))
  | up _ ih => exact .up (ih nofun heq)
  | noElse htest hb hc ihtest ihc =>
      have hle := htest.excess_le
      have hle' := hc.excess_le
      simp only [excess, Phrase.due, Kind.nesting, hb] at heq hle hle' ihtest ihc
      exact .noElse (ihtest nofun (by omega)) hb (ihc nofun (by omega))
  | elseBlock htest hb hc hw hb' hd ihtest ihc ihd =>
      have hle := htest.excess_le
      have hle' := hc.excess_le
      have hle'' := hd.excess_le
      simp only [excess, Phrase.due, Kind.nesting, hb, hw, hb'] at heq hle hle' hle'' ihtest ihc ihd
      exact .elseBlock (ihtest nofun (by omega)) hb (ihc nofun (by omega)) hw hb'
        (ihd nofun (by omega))
  | elseIf htest hb hc hw hw' hnested ihtest ihc ihnested =>
      have hle := htest.excess_le
      have hle' := hc.excess_le
      have hle'' := hnested.excess_le
      simp only [excess, Phrase.due, Kind.nesting, hb, hw, hw'] at heq hle hle' hle'' ihtest ihc
      simp only [Phrase.due] at ihnested
      exact .elseIf (ihtest nofun (by omega)) hb (ihc nofun (by omega)) hw hw'
        (ihnested nofun (by omega))
  | itemExpression _ ih => exact .itemExpression (ih nofun heq)
  | itemParameter ht => exact .itemParameter ht
  | listEmpty hr => exact .listEmpty hr
  | listItems ha has hr iha ihas =>
      have hle := ha.excess_le
      have hle' := has.excess_le
      simp only [excess, Phrase.due, hr] at heq hle hle' iha ihas
      exact .listItems (iha nofun (by omega)) (ihas nofun (by omega)) hr
  | tailEmpty => exact .tailEmpty
  | tailItem hc ha has iha ihas =>
      have hle := ha.excess_le
      have hle' := has.excess_le
      simp only [excess, Phrase.due, Kind.nesting, hc] at heq hle hle' iha ihas
      exact .tailItem hc (iha nofun (by omega)) (ihas nofun (by omega))
  | pairsEmpty hr => exact .pairsEmpty hr
  | pairsLast hk hc hv hr ihk ihv =>
      have hle := hk.excess_le
      have hle' := hv.excess_le
      simp only [excess, Phrase.due, Kind.nesting, hc, hr] at heq hle hle' ihk ihv
      exact .pairsLast (ihk nofun (by omega)) hc (ihv nofun (by omega)) hr
  | pairsMore hk hc hv hs hps ihk ihv ihps =>
      have hle := hk.excess_le
      have hle' := hv.excess_le
      have hle'' := hps.excess_le
      simp only [excess, Phrase.due, Kind.nesting, hc, hs] at heq hle hle' hle'' ihk ihv ihps
      exact .pairsMore (ihk nofun (by omega)) hc (ihv nofun (by omega)) hs (ihps nofun (by omega))
  | bind hw ht ha _ ih =>
      simp only [excess, Phrase.due, Kind.nesting, hw, ht, ha] at heq ih
      exact .bind hw ht ha (ih nofun (by omega))
  | ret hw _ ih =>
      simp only [excess, Phrase.due, Kind.nesting, hw] at heq ih
      exact .ret hw (ih nofun (by omega))
  | expr _ ih => exact .expr (ih nofun heq)
  | @finish braced o _ =>
      -- The end of input would have closed a block, and then one brace is too many.
      cases braced with
      | false => exact absurd rfl hx
      | true =>
          simp only [Phrase.due] at heq
          omega
  | closed hr => exact .closed hr
  | @ended braced c s ss i m o hs hc hss ihs ihss =>
      cases braced with
      | false => exact absurd rfl hx
      | true =>
          have hle := hs.excess_le
          have hle' := hss.excess_le
          simp only [excess, Phrase.due, Kind.nesting, hc] at heq hle hle' ihs ihss
          exact .ended (ihs nofun (by omega)) hc (ihss nofun (by omega))
  | @adjacent braced s ss i m o hs hsemi hcont hss ihs ihss =>
      cases braced with
      | false => exact absurd rfl hx
      | true =>
          have hle := hs.excess_le
          have hle' := hss.excess_le
          simp only [Phrase.due] at heq hle hle' ihs ihss
          have hrest := ihss nofun (by omega)
          have hfirst := ihs nofun (by omega)
          cases m with
          | nil =>
              -- Only the end of input ends a block where no token is left.
              have hnil := hss.length_le
              simp only [Phrase.least, List.length_nil, Nat.add_zero] at hnil
              obtain rfl : o = [] := List.eq_nil_of_length_eq_zero (Nat.le_zero.mp hnil)
              simp only [excess] at heq hle hle'
              omega
          | cons t m => exact .adjacent hfirst hsemi hcont hrest

end Derives

end Grammar

end Monkey
