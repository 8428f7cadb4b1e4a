import Monkey.Proofs.Parsing.Soundness
import Monkey.Proofs.Parsing.Completeness

/-!
# The Language of the Parser

The parser accepts the texts of the grammar, no others, and builds their trees.

Both directions hold between lists of tokens, and both speak of a phrase with
what follows it. For a whole text nothing follows, so only the two ends are
left to join. The parser stops where it sees the end of input, and the lexer
never lists that token; hence a parser that stopped has no token left.

A program that was accepted has one derivation target: the same tokens cannot
derive two programs, since the parser would have to return both.

## Theorems

* `Lexer.readToEnd_kind_ne_finish`: The end of input is not listed.
* `parseTokens_eq_of_derives`: The parser reads what is derived.
* `derives_of_parseTokens`: What the parser reads without an error is derived.
* `parseStrict_eq_ok_iff`: A text is accepted if and only if it is derived.
* `Grammar.Derives.unique`: A text derives one program at most.
-/

namespace Monkey

open Grammar

namespace Lexer

/-- The end of input is not listed among the tokens of a text. -/
theorem readToEnd_kind_ne_finish (lx : Lexer) :
    ∀ t ∈ lx.readToEnd.tokens, t.kind ≠ .finish := by
  fun_induction readToEnd lx with
  | case1 lx _ => exact fun t ht => absurd ht List.not_mem_nil
  | case2 lx hfinish behind ih =>
      intro t ht
      rcases List.mem_cons.mp ht with rfl | ht
      · exact hfinish
      · exact ih t ht

end Lexer

/-- Among tokens that the lexer listed, the end of input is ahead only behind
    the last one. -/
theorem eq_nil_of_ahead {ts : List Token} (hts : ∀ t ∈ ts, t.kind ≠ .finish)
    (h : ahead ts = .finish) : ts = [] := by
  cases ts with
  | nil => rfl
  | cons t ts => exact absurd h (hts t List.mem_cons_self)

/-- The parser reads what is derived, and it has nothing to complain about. -/
theorem parseTokens_eq_of_derives {program : Block} {tokens : List Token}
    (h : Derives (.statements false) program tokens []) (length : Nat) :
    parseTokens tokens length = ⟨program, []⟩ := by
  have hfinds := Parser.parsed_of_derives h trivial (tokens.length + 1) (tokens.length + 1)
    (Nat.lt_succ_self _) (Nat.lt_succ_self _)
  have hrun := hfinds (.start tokens length)
  change Parser.program _ _ (.start tokens length) = _ at hrun
  unfold parseTokens
  simp only [hrun]
  rfl

/-- What the parser reads without an error is derived. -/
theorem derives_of_parseTokens {tokens : List Token} {length : Nat}
    (hts : ∀ t ∈ tokens, t.kind ≠ .finish) (h : (parseTokens tokens length).errors = []) :
    Derives (.statements false) (parseTokens tokens length).program tokens [] := by
  rcases exists_program tokens length with ⟨s, -, herrors, hleads, hend⟩
  -- The parser stopped in front of the end of input, and no token of the text is that.
  have hnil : s.rest = [] := eq_nil_of_ahead (fun t ht => hts t (hleads.rest.mem ht)) hend
  have hderives := hleads.found (herrors.trans h)
  rw [hnil] at hderives
  exact hderives

/-- A program is accepted without an error as soon as its text derives it. -/
theorem parseStrict_eq_ok {source : String} {program : Block}
    (h : Derives (.statements false) program (Lexer.read source).tokens []) :
    parseStrict source = .ok program := by
  simp only [parseStrict, parse, parseTokens_eq_of_derives h, List.isEmpty_nil, if_true]

/-- The parser accepts a text with a program if and only if the grammar
    derives the program from the tokens of the text. -/
theorem parseStrict_eq_ok_iff (source : String) (program : Block) :
    parseStrict source = .ok program ↔
      Derives (.statements false) program (Lexer.read source).tokens [] := by
  refine ⟨fun h => ?_, parseStrict_eq_ok⟩
  unfold parseStrict at h
  simp only at h
  split at h
  · rename_i herrors
    rw [← Except.ok.inj h]
    exact derives_of_parseTokens (Lexer.readToEnd_kind_ne_finish _)
      (List.isEmpty_iff.mp herrors)
  · exact absurd h (by simp only [reduceCtorEq, not_false_eq_true])

namespace Grammar

/-- No text derives two programs. The grammar alone does not say so: a
    statement could end earlier, or an operand could be part of another
    tier. -/
theorem Derives.unique {tokens : List Token} {p q : Block}
    (hp : Derives (.statements false) p tokens [])
    (hq : Derives (.statements false) q tokens []) : p = q := by
  have heq := (parseTokens_eq_of_derives hp 0).symm.trans (parseTokens_eq_of_derives hq 0)
  exact congrArg Parsed.program heq

end Grammar

end Monkey
