/-!
# Escaped Text

How the contents of a string are written between quotes, and how they are
read back.

Five characters are written as a backslash and a letter or sign; every other
character stands for itself, line ends of other kinds and control characters
included. Reading is more generous than writing: a backslash in front of any
other character is kept together with that character, so text that was never
escaped on purpose is not damaged. `unescape` therefore reads every text, and
no error can arise while reading one.

The closing quote is found by `splitQuote`, which treats a backslash and the
character behind it as one unit. That is the whole reason an escaped quote
does not end a string.

## Main definitions

* `escapeChars`: Contents as they are written between quotes.
* `unescapeChars`: What a text between quotes stands for.
* `splitQuote`: The text up to the closing quote, and the text behind it.
* `quoted`: A string written as the literal that denotes it.

## Theorems

* `splitQuote_eq_append`: The closing quote splits the text.
* `unescapeChars_escapeChars`: Reading what was written gives the contents.
* `splitQuote_escapeChars`: The closing quote is found where it was put.
-/

namespace Monkey

namespace Text

/-- How one character of a string's contents is written between quotes. -/
def escapeChar : Char → List Char
  | '"' => ['\\', '"']
  | '\\' => ['\\', '\\']
  | '\n' => ['\\', 'n']
  | '\r' => ['\\', 'r']
  | '\t' => ['\\', 't']
  | c => [c]

/-- The contents of a string as they are written between quotes. -/
def escapeChars (contents : List Char) : List Char :=
  contents.flatMap escapeChar

/-- What a backslash and the character behind it stand for. A pair that means
    nothing in particular stands for itself. -/
def unescapePair : Char → List Char
  | '"' => ['"']
  | '\\' => ['\\']
  | 'n' => ['\n']
  | 'r' => ['\r']
  | 't' => ['\t']
  | c => ['\\', c]

/-- What a text between quotes stands for. -/
def unescapeChars : List Char → List Char
  | '\\' :: c :: rest => unescapePair c ++ unescapeChars rest
  -- A backslash gets here if it is the last character.
  | c :: rest => c :: unescapeChars rest
  | [] => []

/-- Splits the text behind an opening quote at the closing one, which is
    dropped. There is no closing quote if the text ends first, be it right
    behind a backslash. -/
def splitQuote : List Char → Option (List Char × List Char)
  | '"' :: rest => some ([], rest)
  | '\\' :: c :: rest => (splitQuote rest).map fun found => ('\\' :: c :: found.1, found.2)
  | c :: rest => (splitQuote rest).map fun found => (c :: found.1, found.2)
  | [] => none

/-- The contents of a string as they are written between quotes. -/
def escape (contents : String) : String :=
  String.ofList (escapeChars contents.toList)

/-- The string literal that denotes the given contents. -/
def quoted (contents : String) : String :=
  "\"" ++ escape contents ++ "\""

/-- The closing quote splits the text and is the only thing lost. -/
theorem splitQuote_eq_append {text body rest : List Char}
    (h : splitQuote text = some (body, rest)) : text = body ++ '"' :: rest := by
  fun_induction splitQuote text generalizing body rest with
  | case1 rest' =>
      simp only [Option.some.injEq, Prod.mk.injEq] at h
      rcases h with ⟨rfl, rfl⟩
      rfl
  | case2 c rest' ih =>
      rcases Option.map_eq_some_iff.mp h with ⟨found, hf, he⟩
      simp only [Prod.mk.injEq] at he
      rcases he with ⟨rfl, rfl⟩
      rw [ih hf]
      rfl
  | case3 c rest' _ _ ih =>
      rcases Option.map_eq_some_iff.mp h with ⟨found, hf, he⟩
      simp only [Prod.mk.injEq] at he
      rcases he with ⟨rfl, rfl⟩
      rw [ih hf]
      rfl
  | case4 => exact absurd h (by simp only [reduceCtorEq, not_false_eq_true])

/-- A character that has no escape of its own is written as it is. -/
theorem escapeChar_eq_self {c : Char} (hq : c ≠ '"') (hb : c ≠ '\\') (hn : c ≠ '\n')
    (hr : c ≠ '\r') (ht : c ≠ '\t') : escapeChar c = [c] := by
  unfold escapeChar
  split
  · exact absurd rfl hq
  · exact absurd rfl hb
  · exact absurd rfl hn
  · exact absurd rfl hr
  · exact absurd rfl ht
  · rfl

/-- Reading what was written gives the contents back. -/
theorem unescapeChars_escapeChars (contents : List Char) :
    unescapeChars (escapeChars contents) = contents := by
  induction contents with
  | nil => rfl
  | cons c rest ih =>
      have hcons : escapeChars (c :: rest) = escapeChar c ++ escapeChars rest := rfl
      rw [hcons]
      by_cases hq : c = '"'
      · subst hq
        exact congrArg ('"' :: ·) ih
      by_cases hb : c = '\\'
      · subst hb
        exact congrArg ('\\' :: ·) ih
      by_cases hn : c = '\n'
      · subst hn
        exact congrArg ('\n' :: ·) ih
      by_cases hr : c = '\r'
      · subst hr
        exact congrArg ('\r' :: ·) ih
      by_cases ht : c = '\t'
      · subst ht
        exact congrArg ('\t' :: ·) ih
      -- No pair can start with a character that is not a backslash.
      rw [escapeChar_eq_self hq hb hn hr ht, List.singleton_append, unescapeChars]
      · rw [ih]
      · intro d tail hc _
        exact hb hc

/-- The closing quote is found where the writer put it, whatever follows. -/
theorem splitQuote_escapeChars (contents rest : List Char) :
    splitQuote (escapeChars contents ++ '"' :: rest) = some (escapeChars contents, rest) := by
  induction contents with
  | nil => rfl
  | cons c tail ih =>
      have hcons : escapeChars (c :: tail) = escapeChar c ++ escapeChars tail := rfl
      rw [hcons, List.append_assoc]
      by_cases hq : c = '"'
      · subst hq
        simp only [escapeChar, List.cons_append, List.nil_append, splitQuote, ih, Option.map_some]
      by_cases hb : c = '\\'
      · subst hb
        simp only [escapeChar, List.cons_append, List.nil_append, splitQuote, ih, Option.map_some]
      by_cases hn : c = '\n'
      · subst hn
        simp only [escapeChar, List.cons_append, List.nil_append, splitQuote, ih, Option.map_some]
      by_cases hr : c = '\r'
      · subst hr
        simp only [escapeChar, List.cons_append, List.nil_append, splitQuote, ih, Option.map_some]
      by_cases ht : c = '\t'
      · subst ht
        simp only [escapeChar, List.cons_append, List.nil_append, splitQuote, ih, Option.map_some]
      rw [escapeChar_eq_self hq hb hn hr ht, List.singleton_append, splitQuote, ih]
      · rfl
      · exact hq
      · intro d behind hc _
        exact hb hc

end Text

end Monkey
