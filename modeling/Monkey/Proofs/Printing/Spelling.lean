import Monkey.Token.Lexer
import Monkey.Text.Decimal

/-!
# How Tokens are Spelled

Texts whose first token is known.

Reading a text means cutting off one token after another, and each cut depends
on what stands behind the token: a name goes on as long as it can, and an
equals sign turns some signs into others. `Lexer.Spells` says that a text
starts with a token and which text remains, wherever the text stands in a
source. The lemmas about it state in each case what has to be known about the
text behind the token, so whoever composes a text sees what the pieces demand
of each other.

A name or a number demands the most. `Lexer.Apart` is what it asks for, and
the texts that are put together of tokens never ask for more.

## Main definitions

* `Lexer.tokensAt`: The tokens of a text that stands somewhere in a source.
* `Lexer.Spells`: The first token of a text, and what remains.
* `Lexer.Apart`: A text that does not go on with a name or a number.

## Theorems

* `Lexer.spells_munch`: The first token is what is cut off first.
* `Lexer.spells_sign`, `Lexer.spells_operator`, `Lexer.spells_assign`: Signs.
* `Lexer.spells_word`, `Lexer.spells_keyword`, `Lexer.spells_digits`: Names,
  keywords and numbers.
* `Lexer.spells_quoted`: Strings.
-/

namespace Monkey

namespace Lexer

/-- The tokens of a text that starts at the given byte of a source. -/
def tokensAt (offset : Nat) (text : List Char) : List Token :=
  (Lexer.mk text offset false).readToEnd.tokens

theorem tokensAt_nil (k : Nat) : tokensAt k [] = [] := by
  unfold tokensAt readToEnd
  exact congrArg Reading.tokens (dif_pos rfl)

/-- A blank is not part of any token. -/
theorem tokensAt_separator {c : Char} (hc : Text.isSeparator c = true) (k : Nat)
    (rest : List Char) : tokensAt k (c :: rest) = tokensAt (k + c.utf8Size) rest := by
  -- The next token is the same; only the count of bytes in front of it is split elsewhere.
  have hnext : (Lexer.mk (c :: rest) k false).next
      = (Lexer.mk rest (k + c.utf8Size) false).next := by
    unfold next
    simp only [List.takeWhile_cons_of_pos hc, List.dropWhile_cons_of_pos hc, byteLength,
      List.foldr_cons, Nat.add_assoc]
  unfold tokensAt
  rw [readToEnd, readToEnd.eq_1 (Lexer.mk rest _ _)]
  simp only [hnext]

theorem wordKind_ne_finish (word : List Char) : wordKind word ≠ .finish := by
  unfold wordKind Kind.ofKeyword?
  intro h
  cases hfound : List.find? (fun k : Kind => k.name == String.ofList word)
      [.fnWord, .letWord, .trueWord, .falseWord, .ifWord, .elseWord, .returnWord] with
  | none =>
      rw [hfound] at h
      exact absurd h (by decide)
  | some k =>
      have hmem := List.mem_of_find?_eq_some hfound
      rw [hfound] at h
      rw [show k = Kind.finish from h] at hmem
      exact absurd hmem (by decide)

theorem sign?_ne_finish (c : Char) : sign? c ≠ some .finish := by
  unfold sign?
  split <;> decide

theorem munchSign_kind_ne_finish (c : Char) {single double : Kind} (hsingle : single ≠ .finish)
    (hdouble : double ≠ .finish) (rest : List Char) :
    (munchSign c single double rest).kind ≠ .finish := by
  unfold munchSign
  split
  · exact hdouble
  · exact hsingle

/-- The end of input is no token that could be cut off a text. -/
theorem munch_kind_ne_finish (c : Char) (rest : List Char) : (munch c rest).kind ≠ .finish := by
  -- One case for each question that is asked of the first character, in the order of asking.
  unfold munch
  split
  · rename_i kind h
    intro hkind
    rw [show kind = .finish from hkind] at h
    exact sign?_ne_finish c h
  · split
    · exact munchSign_kind_ne_finish c (by decide) (by decide) rest
    · split
      · exact munchSign_kind_ne_finish c (by decide) (by decide) rest
      · split
        · unfold munchString
          split <;> simp only [Lexeme.plain, ne_eq, reduceCtorEq, not_false_eq_true]
        · split
          · simp only [munchRun, Lexeme.plain, ne_eq, reduceCtorEq, not_false_eq_true]
          · split
            · exact wordKind_ne_finish _
            · simp only [Lexeme.plain, ne_eq, reduceCtorEq, not_false_eq_true]

/-- The first token of a text and what remains behind it, wherever the text
    stands. -/
def Spells (text : List Char) (kind : Kind) (literal : String) (rest : List Char) : Prop :=
  ∀ k, ∃ (t : Token) (k' : Nat), t.kind = kind ∧ t.literal = literal ∧
    tokensAt k text = t :: tokensAt k' rest

variable {text rest : List Char} {kind : Kind} {literal : String} {c : Char}

theorem Spells.blank (h : Spells text kind literal rest) :
    Spells (' ' :: text) kind literal rest := by
  intro k
  rw [tokensAt_separator (by decide)]
  exact h _

/-- The first token is what is cut off first. -/
theorem spells_munch (hc : Text.isSeparator c = false) (rest : List Char) :
    Spells (c :: rest) (munch c rest).kind (String.ofList (munch c rest).literal)
      (munch c rest).rest := by
  intro k
  have hnext : (Lexer.mk (c :: rest) k false).next =
      (⟨(munch c rest).kind, String.ofList (munch c rest).literal,
          ⟨k, k + byteLength (munch c rest).slice⟩⟩,
        ⟨(munch c rest).rest, k + byteLength (munch c rest).slice, false⟩) := by
    unfold next
    simp only [List.takeWhile_cons_of_neg (ne_true_of_eq_false hc),
      List.dropWhile_cons_of_neg (ne_true_of_eq_false hc), byteLength, List.foldr_nil,
      Nat.add_zero]
  have hfinish : (Lexer.mk (c :: rest) k false).next.1.kind ≠ .finish := by
    rw [hnext]
    exact munch_kind_ne_finish c rest
  refine ⟨(Lexer.mk (c :: rest) k false).next.1, k + byteLength (munch c rest).slice, ?_, ?_, ?_⟩
  · rw [hnext]
  · rw [hnext]
  · unfold tokensAt
    rw [readToEnd, dif_neg hfinish]
    simp only [hnext]

theorem not_separator_of_sign (h : sign? c = some kind) : Text.isSeparator c = false := by
  refine Bool.eq_false_iff.mpr fun hsep => ?_
  simp only [Text.isSeparator, Bool.or_eq_true, beq_iff_eq] at hsep
  rcases hsep with (((rfl | rfl) | rfl) | rfl) | rfl <;> cases h

/-- A sign of one character that no other sign starts with. -/
theorem spells_sign (h : sign? c = some kind) (rest : List Char) :
    Spells (c :: rest) kind (String.ofList [c]) rest := by
  have hmunch : munch c rest = .plain kind [c] rest := by
    unfold munch
    rw [h]
  have hspells := spells_munch (not_separator_of_sign h) rest
  rw [hmunch] at hspells
  exact hspells

theorem munchSign_single {single double : Kind} (h : rest.head? ≠ some '=') :
    munchSign c single double rest = .plain single [c] rest := by
  unfold munchSign
  split
  · exact absurd rfl h
  · rfl

/-- A blank is no second half of a sign. -/
theorem blank_ne_equals (rest : List Char) : (' ' :: rest).head? ≠ some '=' := by
  simp only [List.head?_cons, ne_eq, Option.some.injEq, Char.reduceEq, not_false_eq_true]

/-- The sign of a binding, if it is not the first half of another sign. -/
theorem spells_assign (h : rest.head? ≠ some '=') : Spells ('=' :: rest) .assign "=" rest := by
  have hspells := spells_munch (c := '=') (by decide) rest
  rw [show munch '=' rest = munchSign '=' .assign .equal rest from rfl, munchSign_single h]
    at hspells
  exact hspells

/-- The operators that stand between operands. -/
def binaryKinds : List Kind :=
  [.plus, .minus, .star, .slash, .less, .greater, .equal, .notEqual]

/-- The operators of the language. Only the minus has two places to stand in,
    so the one for `!` is the only one that is added. -/
def operatorKinds : List Kind :=
  .bang :: binaryKinds

/-- An operator is spelled by its name. -/
theorem spells_operator (hkind : kind ∈ operatorKinds) (h : rest.head? ≠ some '=') :
    Spells (kind.name.toList ++ rest) kind kind.name rest := by
  have hbang : Spells ('!' :: rest) .bang "!" rest := by
    have hspells := spells_munch (c := '!') (by decide) rest
    rw [show munch '!' rest = munchSign '!' .bang .notEqual rest from rfl, munchSign_single h]
      at hspells
    exact hspells
  simp only [operatorKinds, binaryKinds, List.mem_cons, List.not_mem_nil, or_false] at hkind
  -- A sign of two characters has its equals sign with it and asks nothing of the rest.
  rcases hkind with rfl | rfl | rfl | rfl | rfl | rfl | rfl | rfl | rfl
  · exact hbang
  · exact spells_sign (c := '+') rfl rest
  · exact spells_sign (c := '-') rfl rest
  · exact spells_sign (c := '*') rfl rest
  · exact spells_sign (c := '/') rfl rest
  · exact spells_sign (c := '<') rfl rest
  · exact spells_sign (c := '>') rfl rest
  · exact spells_munch (c := '=') (by decide) ('=' :: rest)
  · exact spells_munch (c := '!') (by decide) ('=' :: rest)

/-- A text that does not go on with a name or a number. The end of a source is
    one, too. -/
def Apart (rest : List Char) : Prop :=
  ∀ c ∈ rest.head?, isNameRest c = false

theorem apart_nil : Apart [] :=
  fun _ hc => absurd hc (by simp only [List.head?_nil, Option.not_mem_none, not_false_eq_true])

theorem apart_cons (rest : List Char) (hc : isNameRest c = false) : Apart (c :: rest) := by
  intro d hd
  rw [List.head?_cons, Option.mem_some_iff] at hd
  rw [← hd]
  exact hc

/-- A run of characters of a class ends where the text behind it starts. -/
theorem munchRun_append {kindOf : List Char → Kind} {p : Char → Bool} {run : List Char}
    (hrun : ∀ d ∈ run, p d = true) (hrest : ∀ d ∈ rest.head?, p d = false) :
    munchRun kindOf p c (run ++ rest) = .plain (kindOf (c :: run)) (c :: run) rest := by
  have htake : rest.takeWhile p = [] := by
    cases rest with
    | nil => rfl
    | cons d ds => exact List.takeWhile_cons_of_neg (ne_true_of_eq_false (hrest d rfl))
  have hdrop : rest.dropWhile p = rest := by
    cases rest with
    | nil => rfl
    | cons d ds => exact List.dropWhile_cons_of_neg (ne_true_of_eq_false (hrest d rfl))
  simp only [munchRun, List.takeWhile_append_of_pos hrun, List.dropWhile_append_of_pos hrun,
    htake, hdrop, List.append_nil]

theorem not_digit_of_nameStart (h : isNameStart c = true) : c.isDigit = false := by
  unfold isNameStart Char.isAlpha Char.isUpper Char.isLower at h
  simp only [Bool.or_eq_true, Bool.and_eq_true, decide_eq_true_eq, beq_iff_eq, ge_iff_le,
    UInt32.le_iff_toNat_le] at h
  rcases h with h | rfl
  · -- Letters and digits are ranges of code points that do not meet.
    refine Bool.eq_false_iff.mpr fun hdigit => ?_
    simp only [Char.isDigit, Bool.and_eq_true, decide_eq_true_eq, ge_iff_le,
      UInt32.le_iff_toNat_le] at hdigit
    have hnine : '9'.val.toNat = 57 := rfl
    have hupper : 'A'.val.toNat = 65 := rfl
    have hlower : 'a'.val.toNat = 97 := rfl
    omega
  · decide

/-- The characters that separate tokens or that start a sign or a string. -/
def special : List Char :=
  [' ', '\t', '\n', '\x0c', '\r', '+', '-', '*', '/', '<', '>', ',', ';', ':', '(', ')', '\x7b',
    '\x7d', '[', ']', '=', '!', '"']

/-- A class without special characters has only characters that are tried for
    a number or a name. -/
theorem munch_of_class {p : Char → Bool} (hp : special.all fun d => !p d) (hc : p c = true)
    (rest : List Char) : Text.isSeparator c = false ∧
      munch c rest =
        if c.isDigit then munchRun (fun _ => .integer) Char.isDigit c rest
        else if isNameStart c then munchRun wordKind isNameRest c rest
        else .plain .illegal [c] rest := by
  -- Being special is what each of the other questions comes down to.
  have hne : ∀ d ∈ special, c ≠ d := by
    intro d hd heq
    have hfalse := List.all_eq_true.mp hp d hd
    rw [← heq, hc] at hfalse
    exact absurd hfalse (by decide)
  constructor
  · refine Bool.eq_false_iff.mpr fun hsep => ?_
    simp only [Text.isSeparator, Bool.or_eq_true, beq_iff_eq] at hsep
    rcases hsep with (((h | h) | h) | h) | h <;> exact hne _ (by decide) h
  · have hsign : sign? c = none := by
      unfold sign?
      split <;> first | rfl | exact absurd rfl (hne _ (by decide))
    unfold munch
    rw [hsign]
    simp only
    rw [if_neg (hne '=' (by decide)), if_neg (hne '!' (by decide)), if_neg (hne '"' (by decide))]

/-- A name, keyword or not, is cut off as a whole. -/
theorem spells_word {run : List Char} (hc : isNameStart c = true)
    (hrun : ∀ d ∈ run, isNameRest d = true) (hrest : Apart rest) :
    Spells (c :: (run ++ rest)) (wordKind (c :: run)) (String.ofList (c :: run)) rest := by
  rcases munch_of_class (p := isNameStart) (by decide) hc (run ++ rest) with ⟨hsep, hmunch⟩
  rw [if_neg (ne_true_of_eq_false (not_digit_of_nameStart hc)), if_pos hc,
    munchRun_append hrun hrest] at hmunch
  have hspells := spells_munch hsep (run ++ rest)
  rw [hmunch] at hspells
  exact hspells

/-- The keywords of the language. -/
def keywordKinds : List Kind :=
  [.fnWord, .letWord, .trueWord, .falseWord, .ifWord, .elseWord, .returnWord]

/-- A keyword is spelled by its name. -/
theorem spells_keyword {k : Kind} (hk : k ∈ keywordKinds) (hrest : Apart rest) :
    Spells (k.name.toList ++ rest) k k.name rest := by
  simp only [keywordKinds, List.mem_cons, List.not_mem_nil, or_false] at hk
  rcases hk with rfl | rfl | rfl | rfl | rfl | rfl | rfl <;>
    exact spells_word (by decide) (List.all_eq_true.mp (by decide)) hrest

/-- A run of digits is cut off as a whole. -/
theorem spells_digits {run : List Char} (hc : c.isDigit = true)
    (hrun : ∀ d ∈ run, d.isDigit = true) (hrest : Apart rest) :
    Spells (c :: (run ++ rest)) .integer (String.ofList (c :: run)) rest := by
  -- Being apart asks for more than a number needs, since no letter may follow either.
  have hrest' : ∀ d ∈ rest.head?, d.isDigit = false := by
    intro d hd
    refine Bool.eq_false_iff.mpr fun hdigit => ?_
    have hname := hrest d hd
    simp only [isNameRest, Char.isAlphanum, hdigit, Bool.or_true, Bool.true_or,
      Bool.true_eq_false] at hname
  rcases munch_of_class (p := Char.isDigit) (by decide) hc (run ++ rest) with ⟨hsep, hmunch⟩
  rw [if_pos hc, munchRun_append hrun hrest'] at hmunch
  have hspells := spells_munch hsep (run ++ rest)
  rw [hmunch] at hspells
  exact hspells

/-- A literal starts with a quote and ends with one. -/
theorem toList_quoted (contents : String) (rest : List Char) :
    (Text.quoted contents).toList ++ rest
      = '"' :: (Text.escapeChars contents.toList ++ '"' :: rest) := by
  simp only [Text.quoted, Text.escape, String.toList_append, String.toList_ofList]
  simp only [List.append_assoc]
  rfl

/-- No quote of the contents is left bare, so the first one that is ends the
    literal. -/
theorem munch_quoted (contents : String) (rest : List Char) :
    munch '"' (Text.escapeChars contents.toList ++ '"' :: rest)
      = ⟨.string, '"' :: (Text.escapeChars contents.toList ++ ['"']), contents.toList, rest⟩ := by
  change munchString _ = _
  simp only [munchString, Text.splitQuote_escapeChars, Text.unescapeChars_escapeChars]

/-- A string is cut off with its quotes, whatever it contains and whatever
    stands behind it. -/
theorem spells_quoted (contents : String) (rest : List Char) :
    Spells ((Text.quoted contents).toList ++ rest) .string contents rest := by
  have hspells := spells_munch (c := '"') (by decide)
    (Text.escapeChars contents.toList ++ '"' :: rest)
  rw [munch_quoted, String.ofList_toList] at hspells
  rw [toList_quoted]
  exact hspells

end Lexer

end Monkey
