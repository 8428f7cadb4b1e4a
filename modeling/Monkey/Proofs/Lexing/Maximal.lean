import Mathlib
import Monkey.Proofs.Lexing.Cover

/-!
# Tokens are as Long as They Can Be

What a token of each kind looks like, and where it ends.

`Lexer.Form` lists the forms of tokens without saying how one would read them:
names and keywords, runs of digits, symbols, strings, and two forms of illegal
text. A reader cuts off the front of a text that has one of these forms, and it
takes as much as it can. No longer piece of the text at that place has a form,
be it the same one or another one (`Lexer.Form.not_longer`). So `lettuce` is not
the keyword with something behind it, and two equals signs are never two tokens
if nothing is between them.

Strings are what needs care. A backslash takes the next character with it, and
if that is a quote then the string goes on behind it. Backslashes may come in
runs, so whether a quote ends the string cannot be told from the character in
front of it, but only from the beginning. `Text.Paired` texts are those that
can be taken apart into such pairs and single characters, and a quote is bare if
what is in front of it is such a text. A string ends at its first bare quote,
and if there is none then the text as a whole is illegal.

## Main definitions

* `Text.Paired`, `Text.HasBareQuote`: Quotes that end a string.
* `Lexer.Form`: What a token of each kind looks like.
* `Lexer.Ends`: What stands behind a token.

## Theorems

* `Text.splitQuote_bare`, `Text.splitQuote_none`: The first bare quote.
* `Lexer.munch_formed`: The form of what is cut off, and where it ends.
* `Lexer.Form.not_longer`: Nothing longer has a form.
* `Lexer.read_maximal`: The tokens of a source.
-/

namespace Monkey

namespace Text

/-- A text that can be taken apart into pairs that start with a backslash, and
    characters that are none. -/
inductive Paired : List Char → Prop where
  | nil : Paired []
  | pair (c : Char) {text : List Char} (h : Paired text) : Paired ('\\' :: c :: text)
  | single {c : Char} (hc : c ≠ '\\') {text : List Char} (h : Paired text) : Paired (c :: text)

/-- There is a quote in a text that is not the second half of a pair. -/
def HasBareQuote (text : List Char) : Prop :=
  ∃ front behind, text = front ++ '"' :: behind ∧ Paired front

variable {text body rest : List Char} {c : Char}

/-- A pair has no bare quote in it. -/
theorem hasBareQuote_pair : HasBareQuote ('\\' :: c :: text) ↔ HasBareQuote text := by
  constructor
  · rintro ⟨front, behind, htext, hfront⟩
    cases hfront with
    | nil => exact absurd (List.cons.inj htext).1 (by decide)
    | pair d h => exact ⟨_, behind, (List.cons.inj (List.cons.inj htext).2).2, h⟩
    | single hd h => exact absurd (List.cons.inj htext).1.symm hd
  · rintro ⟨front, behind, rfl, hfront⟩
    exact ⟨'\\' :: c :: front, behind, rfl, .pair c hfront⟩

theorem hasBareQuote_single (hquote : c ≠ '"') (hpair : c ≠ '\\') :
    HasBareQuote (c :: text) ↔ HasBareQuote text := by
  constructor
  · rintro ⟨front, behind, htext, hfront⟩
    cases hfront with
    | nil => exact absurd (List.cons.inj htext).1 hquote
    | pair d h => exact absurd (List.cons.inj htext).1 hpair
    | single hd h => exact ⟨_, behind, (List.cons.inj htext).2, h⟩
  · rintro ⟨front, behind, rfl, hfront⟩
    exact ⟨c :: front, behind, rfl, .single hpair hfront⟩

theorem not_hasBareQuote_nil : ¬HasBareQuote [] := by
  rintro ⟨front, behind, htext, -⟩
  exact absurd htext.symm (by simp)

/-- Half a pair hides nothing. -/
theorem not_hasBareQuote_backslash : ¬HasBareQuote ['\\'] := by
  rintro ⟨front, behind, htext, hfront⟩
  cases hfront with
  | nil => exact absurd (List.cons.inj htext).1 (by decide)
  | pair d h => exact absurd (List.cons.inj htext).2 (by simp)
  | single hd h => exact absurd (List.cons.inj htext).1.symm hd

/-- A string is closed by the first bare quote. -/
theorem splitQuote_bare (h : splitQuote text = some (body, rest)) :
    Paired body ∧ ¬HasBareQuote body := by
  fun_induction splitQuote text generalizing body rest with
  | case1 rest' =>
      cases h
      exact ⟨.nil, not_hasBareQuote_nil⟩
  | case2 c rest' ih =>
      rcases Option.map_eq_some_iff.mp h with ⟨found, hfound, heq⟩
      cases heq
      rcases ih hfound with ⟨hpaired, hbare⟩
      exact ⟨.pair c hpaired, mt hasBareQuote_pair.mp hbare⟩
  | case3 c rest' hquote hpair ih =>
      rcases Option.map_eq_some_iff.mp h with ⟨found, hfound, heq⟩
      cases heq
      rcases ih hfound with ⟨hpaired, hbare⟩
      have hc : c ≠ '\\' := by
        -- There is no quote to be found if nothing is behind the backslash.
        intro hc
        cases rest' with
        | nil => cases hfound
        | cons d tail => exact hpair d tail hc rfl
      exact ⟨.single hc hpaired, mt (hasBareQuote_single hquote hc).mp hbare⟩
  | case4 => cases h

/-- A string is not closed only if there is no bare quote. -/
theorem splitQuote_none (h : splitQuote text = none) : ¬HasBareQuote text := by
  fun_induction splitQuote text with
  | case1 rest' => cases h
  | case2 c rest' ih =>
      exact mt hasBareQuote_pair.mp (ih (Option.map_eq_none_iff.mp h))
  | case3 c rest' hquote hpair ih =>
      have hrest := ih (Option.map_eq_none_iff.mp h)
      by_cases hc : c = '\\'
      · cases rest' with
        | nil => exact hc ▸ not_hasBareQuote_backslash
        | cons d tail => exact absurd rfl (hpair d tail hc)
      · exact mt (hasBareQuote_single hquote hc).mp hrest
  | case4 => exact not_hasBareQuote_nil

end Text

namespace Lexer

/-- The letters of ASCII and the underscore. -/
def StartsName (c : Char) : Prop :=
  ('A' ≤ c ∧ c ≤ 'Z') ∨ ('a' ≤ c ∧ c ≤ 'z') ∨ c = '_'

/-- The digits of ASCII. -/
def Digit (c : Char) : Prop :=
  '0' ≤ c ∧ c ≤ '9'

/-- What may stand in a name behind its first character. -/
def PartOfName (c : Char) : Prop :=
  StartsName c ∨ Digit c

instance (c : Char) : Decidable (StartsName c) :=
  inferInstanceAs (Decidable (_ ∨ _))

instance (c : Char) : Decidable (Digit c) :=
  inferInstanceAs (Decidable (_ ∧ _))

instance (c : Char) : Decidable (PartOfName c) :=
  inferInstanceAs (Decidable (_ ∨ _))

/-- The words that are no names. -/
def keywords : List String :=
  ["fn", "let", "true", "false", "if", "else", "return"]

/-- The kinds of operators and delimiters. -/
def symbolKinds : List Kind :=
  [.assign, .plus, .minus, .bang, .star, .slash, .equal, .notEqual, .less, .greater, .comma,
    .semicolon, .colon, .leftParen, .rightParen, .leftBrace, .rightBrace, .leftBracket,
    .rightBracket]

/-- A text that could be a name, if it is no keyword. -/
def IsName (text : List Char) : Prop :=
  ∃ c run, text = c :: run ∧ StartsName c ∧ ∀ d ∈ run, PartOfName d

/-- A token that is not illegal starts with a character. -/
def Starts (c : Char) : Prop :=
  StartsName c ∨ Digit c ∨ c = '"' ∨ ∃ k ∈ symbolKinds, k.name.toList.head? = some c

/-- What the slice of a token of each kind looks like. -/
inductive Form : Kind → List Char → Prop where
  | identifier {word : List Char} (h : IsName word) (hword : String.ofList word ∉ keywords) :
    Form .identifier word
  | keyword {k : Kind} (h : k ∈ keywordKinds) : Form k k.name.toList
  | integer {digits : List Char} (hne : digits ≠ []) (h : ∀ d ∈ digits, Digit d) :
    Form .integer digits
  | symbol {k : Kind} (h : k ∈ symbolKinds) : Form k k.name.toList
  /-- The last quote is bare, and none in front of it is. -/
  | string {body : List Char} (hpaired : Text.Paired body) (hbare : ¬Text.HasBareQuote body) :
    Form .string ('"' :: (body ++ ['"']))
  | stray {c : Char} (hblank : Text.isSeparator c = false) (h : ¬Starts c) : Form .illegal [c]
  | unclosed {text : List Char} (hbare : ¬Text.HasBareQuote text) : Form .illegal ('"' :: text)

/-- What stands behind a token. -/
structure Ends (kind : Kind) (slice rest : List Char) : Prop where
  word : kind = .identifier ∨ kind ∈ keywordKinds → ∀ d ∈ rest.head?, ¬PartOfName d
  integer : kind = .integer → ∀ d ∈ rest.head?, ¬Digit d
  sign : kind = .assign ∨ kind = .bang → rest.head? ≠ some '='
  unclosed : kind = .illegal → slice.head? = some '"' → rest = []

variable {c : Char} {kind : Kind} {slice body rest : List Char}

theorem digit_iff : c.isDigit = true ↔ Digit c := by
  simp only [Char.isDigit, Bool.and_eq_true, decide_eq_true_eq]
  rfl

theorem isNameStart_iff : isNameStart c = true ↔ StartsName c := by
  simp only [isNameStart, Char.isAlpha, Char.isUpper, Char.isLower, Bool.or_eq_true,
    Bool.and_eq_true, decide_eq_true_eq, beq_iff_eq, or_assoc]
  rfl

theorem isNameRest_iff : isNameRest c = true ↔ PartOfName c := by
  have halpha : isNameRest c = (isNameStart c || c.isDigit) := Bool.or_right_comm ..
  rw [halpha, Bool.or_eq_true, isNameStart_iff, digit_iff]
  rfl

theorem not_digit_of_startsName (h : StartsName c) : ¬Digit c := fun hdigit => by
  have hfalse := not_digit_of_nameStart (isNameStart_iff.mpr h)
  rw [digit_iff.mpr hdigit] at hfalse
  cases hfalse

/-- Symbols start with characters that nothing else starts with. -/
theorem first_symbol {k : Kind} (hk : k ∈ symbolKinds) (hc : k.name.toList.head? = some c) :
    ¬StartsName c ∧ ¬Digit c ∧ c ≠ '"' := by
  have hall : ∀ k ∈ symbolKinds, k.name.toList.head?.all
      fun c => decide (¬StartsName c ∧ ¬Digit c ∧ c ≠ '"') := by decide +kernel
  have hfirst := hall k hk
  rw [hc] at hfirst
  exact of_decide_eq_true hfirst

theorem isName_of_all {run : List Char} (hc : StartsName c)
    (hrun : (run.all fun d => decide (PartOfName d)) = true) : IsName (c :: run) :=
  ⟨c, run, rfl, hc, fun d hd => of_decide_eq_true (List.all_eq_true.mp hrun d hd)⟩

theorem isName_keyword {k : Kind} (hk : k ∈ keywordKinds) : IsName k.name.toList := by
  simp only [keywordKinds, List.mem_cons, List.not_mem_nil, or_false] at hk
  rcases hk with rfl | rfl | rfl | rfl | rfl | rfl | rfl <;>
    exact isName_of_all (by decide) (by decide)

/-- The first character of a token tells what the rest of its slice is. -/
theorem Form.first (h : Form kind (c :: body)) :
    StartsName c ∧ (∀ d ∈ body, PartOfName d) ∨
    Digit c ∧ (∀ d ∈ body, Digit d) ∨
    (∃ k ∈ symbolKinds, k.name.toList = c :: body) ∨
    (c = '"' ∧ ((∃ inner, body = inner ++ ['"'] ∧ ¬Text.HasBareQuote inner) ∨
      ¬Text.HasBareQuote body)) ∨
    (¬Starts c ∧ body = []) := by
  generalize hslice : c :: body = slice at h
  cases h with
  | identifier h hword =>
      rcases h with ⟨d, run, rfl, hd, hrun⟩
      cases hslice
      exact .inl ⟨hd, hrun⟩
  | keyword h =>
      rcases isName_keyword h with ⟨d, run, hname, hd, hrun⟩
      cases hslice.trans hname
      exact .inl ⟨hd, hrun⟩
  | integer hne h =>
      cases hslice
      exact .inr (.inl (List.forall_mem_cons.mp h))
  | symbol h => exact .inr (.inr (.inl ⟨_, h, rfl⟩))
  | string hpaired hbare =>
      cases hslice
      exact .inr (.inr (.inr (.inl ⟨rfl, .inl ⟨_, rfl, hbare⟩⟩)))
  | stray hblank h =>
      cases hslice
      exact .inr (.inr (.inr (.inr ⟨h, rfl⟩)))
  | unclosed hbare =>
      cases hslice
      exact .inr (.inr (.inr (.inl ⟨rfl, .inr hbare⟩)))

/-- What starts like a name is a name, be it a keyword or not. -/
theorem Form.of_startsName (h : Form kind (c :: body)) (hc : StartsName c) :
    ∀ d ∈ body, PartOfName d := by
  rcases h.first with h | h | ⟨k, hk, hname⟩ | ⟨rfl, -⟩ | ⟨h, -⟩
  · exact h.2
  · exact absurd h.1 (not_digit_of_startsName hc)
  · exact absurd hc (first_symbol hk (hname ▸ rfl)).1
  · exact absurd hc (by decide)
  · exact absurd (.inl hc) h

theorem Form.of_digit (h : Form kind (c :: body)) (hc : Digit c) : ∀ d ∈ body, Digit d := by
  rcases h.first with h | h | ⟨k, hk, hname⟩ | ⟨rfl, -⟩ | ⟨h, -⟩
  · exact absurd hc (not_digit_of_startsName h.1)
  · exact h.2
  · exact absurd hc (first_symbol hk (hname ▸ rfl)).2.1
  · exact absurd hc (by decide)
  · exact absurd (.inr (.inl hc)) h

theorem Form.of_symbol (h : Form kind (c :: body)) {k : Kind} (hk : k ∈ symbolKinds)
    (hc : k.name.toList.head? = some c) : ∃ k ∈ symbolKinds, k.name.toList = c :: body := by
  rcases first_symbol hk hc with ⟨hname, hdigit, hquote⟩
  rcases h.first with h | h | h | h | ⟨h, -⟩
  · exact absurd h.1 hname
  · exact absurd h.1 hdigit
  · exact h
  · exact absurd h.1 hquote
  · exact absurd (.inr (.inr (.inr ⟨k, hk, hc⟩))) h

theorem Form.of_quote (h : Form kind ('"' :: body)) :
    (∃ inner, body = inner ++ ['"'] ∧ ¬Text.HasBareQuote inner) ∨ ¬Text.HasBareQuote body := by
  rcases h.first with h | h | ⟨k, hk, hname⟩ | h | ⟨h, -⟩
  · exact absurd h.1 (by decide)
  · exact absurd h.1 (by decide)
  · exact absurd rfl (first_symbol hk (hname ▸ rfl)).2.2
  · exact h.2
  · exact absurd (.inr (.inr (.inl rfl))) h

theorem Form.of_stray (h : Form kind (c :: body)) (hc : ¬Starts c) : body = [] := by
  rcases h.first with h | h | ⟨k, hk, hname⟩ | ⟨rfl, -⟩ | h
  · exact absurd (.inl h.1) hc
  · exact absurd (.inr (.inl h.1)) hc
  · exact absurd (.inr (.inr (.inr ⟨k, hk, hname ▸ rfl⟩))) hc
  · exact absurd (.inr (.inr (.inl rfl))) hc
  · exact h.2

theorem symbol_ne_nil {k : Kind} (hk : k ∈ symbolKinds) : k.name.toList ≠ [] := by
  have hall : ∀ k ∈ symbolKinds, k.name.toList ≠ [] := by decide +kernel
  exact hall k hk

/-- Two symbols only go on as others, and they do with an equals sign. -/
theorem symbol_extends {k k' : Kind} (hk : k ∈ symbolKinds) (hk' : k' ∈ symbolKinds)
    {more : List Char} (h : k'.name.toList = k.name.toList ++ more) :
    more = [] ∨ (k = .assign ∨ k = .bang) ∧ more.head? = some '=' := by
  have hall : ∀ k ∈ symbolKinds, ∀ k' ∈ symbolKinds, k.name.toList <+: k'.name.toList →
      (k'.name.toList.drop k.name.toList.length = [] ∨ (k = .assign ∨ k = .bang) ∧
        (k'.name.toList.drop k.name.toList.length).head? = some '=') := by decide +kernel
  have hdrop := hall k hk k' hk' ⟨more, h.symm⟩
  rwa [h, List.drop_left] at hdrop

/-- Nothing that is longer than a token and starts at the same place looks like
    a token, whatever its kind would be. -/
theorem Form.not_longer (h : Form kind slice) (hends : Ends kind slice rest) {k : Kind}
    {more : List Char} (hne : more ≠ []) (hmore : more <+: rest) : ¬Form k (slice ++ more) := by
  obtain ⟨d, tail, rfl⟩ : ∃ d tail, more = d :: tail := List.exists_cons_of_ne_nil hne
  have hhead : rest.head? = some d := by
    rcases hmore with ⟨behind, rfl⟩
    rfl
  have hmem : ∀ front : List Char, d ∈ front ++ d :: tail := fun front =>
    List.mem_append_right front List.mem_cons_self
  intro hlonger
  have hword : IsName slice → (kind = .identifier ∨ kind ∈ keywordKinds) → False := by
    rintro ⟨c, run, rfl, hc, -⟩ hkind
    exact hends.word hkind d hhead (hlonger.of_startsName hc d (hmem run))
  cases h with
  | identifier h _ => exact hword h (.inl rfl)
  | keyword h => exact hword (isName_keyword h) (.inr h)
  | integer hslice h =>
      obtain ⟨c, run, rfl⟩ := List.exists_cons_of_ne_nil hslice
      have hc := h c List.mem_cons_self
      exact hends.integer rfl d hhead (hlonger.of_digit hc d (hmem run))
  | symbol h =>
      obtain ⟨c, body, hname⟩ : ∃ c body, kind.name.toList = c :: body :=
        List.exists_cons_of_ne_nil (symbol_ne_nil h)
      rw [hname, List.cons_append] at hlonger
      rcases hlonger.of_symbol h (hname ▸ rfl) with ⟨k', hk', hname'⟩
      rw [← List.cons_append, ← hname] at hname'
      rcases symbol_extends h hk' hname' with hnil | ⟨hkind, hequals⟩
      · exact hne hnil
      · exact hends.sign hkind (hhead.trans hequals)
  | @string body hpaired hbare =>
      rw [List.cons_append, List.append_assoc, List.singleton_append] at hlonger
      -- The closing quote would be a bare one inside.
      rcases hlonger.of_quote with ⟨inner, hinner, hnone⟩ | hnone
      · obtain ⟨front, last, hmore⟩ : ∃ front last, d :: tail = front ++ [last] :=
          (List.eq_nil_or_concat' (d :: tail)).resolve_left hne
        have hsplit : (body ++ '"' :: front) ++ [last] = inner ++ ['"'] := by
          rw [← hinner, hmore, List.append_assoc, List.cons_append]
        rw [← (List.append_inj' hsplit rfl).1] at hnone
        exact hnone ⟨body, front, rfl, hpaired⟩
      · exact hnone ⟨body, d :: tail, rfl, hpaired⟩
  | stray _ h => exact List.cons_ne_nil d tail (hlonger.of_stray h)
  | unclosed hbare =>
      rw [hends.unclosed rfl rfl] at hhead
      cases hhead

/-- What is asked of the text behind a symbol. -/
theorem ends_symbol (hk : kind ∈ symbolKinds)
    (h : kind = .assign ∨ kind = .bang → rest.head? ≠ some '=') : Ends kind slice rest := by
  have hall : ∀ k ∈ symbolKinds,
      k ≠ .identifier ∧ k ∉ keywordKinds ∧ k ≠ .integer ∧ k ≠ .illegal := by decide
  rcases hall kind hk with ⟨hidentifier, hkeyword, hinteger, hillegal⟩
  exact ⟨fun hword => absurd hword (not_or.mpr ⟨hidentifier, hkeyword⟩),
    fun hkind => absurd hkind hinteger, h, fun hkind => absurd hkind hillegal⟩

theorem ends_word (hk : kind = .identifier ∨ kind ∈ keywordKinds)
    (h : ∀ d ∈ rest.head?, ¬PartOfName d) : Ends kind slice rest := by
  have hall : ∀ k ∈ .identifier :: keywordKinds,
      k ≠ .integer ∧ ¬(k = .assign ∨ k = .bang) ∧ k ≠ .illegal := by decide
  rcases hall kind (List.mem_cons.mpr hk) with ⟨hinteger, hsign, hillegal⟩
  exact ⟨fun _ => h, fun hkind => absurd hkind hinteger, fun hkind => absurd hkind hsign,
    fun hkind => absurd hkind hillegal⟩

theorem ends_integer (h : ∀ d ∈ rest.head?, ¬Digit d) : Ends .integer slice rest :=
  ⟨fun hword => absurd hword (by decide), fun _ => h, fun hsign => absurd hsign (by decide), nofun⟩

theorem ends_string : Ends .string slice rest :=
  ⟨fun hword => absurd hword (by decide), nofun, fun hsign => absurd hsign (by decide), nofun⟩

theorem ends_illegal (h : slice.head? = some '"' → rest = []) : Ends .illegal slice rest :=
  ⟨fun hword => absurd hword (by decide), nofun, fun hsign => absurd hsign (by decide), fun _ => h⟩

theorem sign?_symbol (h : sign? c = some kind) :
    kind ∈ symbolKinds ∧ kind.name.toList = [c] ∧ kind ≠ .assign ∧ kind ≠ .bang := by
  unfold sign? at h
  split at h <;> first | cases h; decide +kernel | cases h

/-- A word is a keyword if it is among the keywords, and then its kind is named by
    it. -/
theorem wordKind_eq (word : List Char) :
    (wordKind word ∈ keywordKinds ∧ (wordKind word).name.toList = word ∧
      String.ofList word ∈ keywords) ∨
    (wordKind word = .identifier ∧ String.ofList word ∉ keywords) := by
  unfold wordKind
  cases hfound : Kind.ofKeyword? (String.ofList word) with
  | some k =>
      have hname := Kind.name_of_ofKeyword? hfound
      have hk : k ∈ keywordKinds := List.mem_of_find?_eq_some hfound
      refine .inl ⟨hk, ?_, ?_⟩
      · rw [Option.getD_some, hname, String.toList_ofList]
      · rw [← hname]
        exact List.mem_map_of_mem hk
  | none =>
      refine .inr ⟨rfl, fun hmem => ?_⟩
      obtain ⟨k, hk, hname⟩ : ∃ k ∈ keywordKinds, k.name = String.ofList word :=
        List.mem_map.mp hmem
      exact List.find?_eq_none.mp hfound k hk (beq_iff_eq.mpr hname)

/-- A token that has the form of its kind, with a text behind it that it does not
    go on with. -/
structure Lexeme.Formed (found : Lexeme) : Prop where
  form : Form found.kind found.slice
  ends : Ends found.kind found.slice found.rest

/-- No run goes on with its own class. -/
theorem head?_dropWhile {p : Char → Bool} : ∀ d ∈ (rest.dropWhile p).head?, ¬p d = true := by
  intro d hd
  have hnot := List.head?_dropWhile_not p rest
  rw [Option.mem_def.mp hd] at hnot
  exact Bool.eq_false_iff.mp hnot

/-- A sign that does or does not have its equals sign behind it. -/
theorem munchSign_formed {single double : Kind} (hsingle : single ∈ symbolKinds)
    (hdouble : double ∈ symbolKinds) (hname : single.name.toList = [c])
    (hname' : double.name.toList = [c, '=']) (hends : ¬(double = .assign ∨ double = .bang)) :
    (munchSign c single double rest).Formed := by
  by_cases hequals : rest.head? = some '='
  · obtain ⟨tail, rfl⟩ : ∃ tail, rest = '=' :: tail := List.head?_eq_some_iff.mp hequals
    have hform : Form double [c, '='] := hname' ▸ .symbol hdouble
    exact ⟨hform, ends_symbol hdouble fun h => absurd h hends⟩
  · rw [munchSign_single hequals]
    have hform : Form single [c] := hname ▸ .symbol hsingle
    exact ⟨hform, ends_symbol hsingle fun _ => hequals⟩

theorem munchString_formed : (munchString rest).Formed := by
  unfold munchString
  cases hsplit : Text.splitQuote rest with
  | none => exact ⟨.unclosed (Text.splitQuote_none hsplit), ends_illegal fun _ => rfl⟩
  | some found =>
      rcases Text.splitQuote_bare hsplit with ⟨hpaired, hbare⟩
      exact ⟨.string hpaired hbare, ends_string⟩

theorem munchDigits_formed (hc : c.isDigit = true) :
    (munchRun (fun _ => .integer) Char.isDigit c rest).Formed where
  form := .integer (List.cons_ne_nil _ _) (List.forall_mem_cons.mpr
    ⟨digit_iff.mp hc, fun d hd => digit_iff.mp (List.all_eq_true.mp List.all_takeWhile d hd)⟩)
  ends := ends_integer fun d hd hdigit => head?_dropWhile d hd (digit_iff.mpr hdigit)

theorem munchWord_formed (hc : isNameStart c = true) :
    (munchRun wordKind isNameRest c rest).Formed := by
  have hends : ∀ d ∈ (rest.dropWhile isNameRest).head?, ¬PartOfName d :=
    fun d hd hpart => head?_dropWhile d hd (isNameRest_iff.mpr hpart)
  rcases wordKind_eq (c :: rest.takeWhile isNameRest) with ⟨hkind, hname, -⟩ | ⟨hkind, hword⟩
  · refine ⟨?_, ends_word (.inr hkind) hends⟩
    have hform := Form.keyword hkind
    rw [hname] at hform
    exact hform
  · refine ⟨?_, ends_word (.inl hkind) hends⟩
    have hrun : ∀ d ∈ rest.takeWhile isNameRest, PartOfName d :=
      fun d hd => isNameRest_iff.mp (List.all_eq_true.mp List.all_takeWhile d hd)
    have hform := Form.identifier ⟨c, _, rfl, isNameStart_iff.mp hc, hrun⟩ hword
    rw [← hkind] at hform
    exact hform

/-- A character starts a token that is not illegal only if it is asked for. -/
theorem not_starts (hsign : sign? c = none) (hassign : c ≠ '=') (hbang : c ≠ '!')
    (hquote : c ≠ '"') (hdigit : ¬c.isDigit = true) (hname : ¬isNameStart c = true) :
    ¬Starts c := by
  rintro (h | h | h | ⟨k, hk, h⟩)
  · exact hname (isNameStart_iff.mpr h)
  · exact hdigit (digit_iff.mpr h)
  · exact hquote h
  · have hall : ∀ k ∈ symbolKinds, k.name.toList.head?.all
        fun c => decide ((sign? c).isSome = true ∨ c = '=' ∨ c = '!') := by decide +kernel
    have hfirst := hall k hk
    rw [h] at hfirst
    rcases of_decide_eq_true hfirst with hsome | h | h
    · rw [hsign] at hsome
      cases hsome
    · exact hassign h
    · exact hbang h

/-- What is cut off a text has the form of its kind and goes on with nothing
    behind it. -/
theorem munch_formed (hblank : Text.isSeparator c = false) : (munch c rest).Formed := by
  unfold munch
  cases hsign : sign? c with
  | some kind =>
      rcases sign?_symbol hsign with ⟨hk, hname, hassign, hbang⟩
      have hform : Form kind [c] := hname ▸ .symbol hk
      exact ⟨hform, ends_symbol hk fun h => absurd h (not_or.mpr ⟨hassign, hbang⟩)⟩
  | none =>
      simp only
      by_cases hassign : c = '='
      · rw [if_pos hassign, hassign]
        exact munchSign_formed (by decide) (by decide) rfl rfl (by decide)
      by_cases hbang : c = '!'
      · rw [if_neg hassign, if_pos hbang, hbang]
        exact munchSign_formed (by decide) (by decide) rfl rfl (by decide)
      by_cases hquote : c = '"'
      · rw [if_neg hassign, if_neg hbang, if_pos hquote]
        exact munchString_formed
      by_cases hdigit : c.isDigit = true
      · rw [if_neg hassign, if_neg hbang, if_neg hquote, if_pos hdigit]
        exact munchDigits_formed hdigit
      by_cases hname : isNameStart c = true
      · rw [if_neg hassign, if_neg hbang, if_neg hquote, if_neg hdigit, if_pos hname]
        exact munchWord_formed hname
      · rw [if_neg hassign, if_neg hbang, if_neg hquote, if_neg hdigit, if_neg hname]
        refine ⟨.stray hblank (not_starts hsign hassign hbang hquote hdigit hname), ?_⟩
        exact ends_illegal fun h => absurd (Option.some.inj h) hquote

/-- A word is a keyword if and only if it is among the keywords. -/
theorem Form.word (h : Form kind slice) (hkind : kind = .identifier ∨ kind ∈ keywordKinds) :
    IsName slice ∧ (kind ∈ keywordKinds ↔ String.ofList slice ∈ keywords) := by
  cases h with
  | identifier h hword => exact ⟨h, iff_of_false (by decide) hword⟩
  | keyword h =>
      refine ⟨isName_keyword h, iff_of_true h ?_⟩
      rw [String.ofList_toList]
      exact List.mem_map_of_mem h
  | symbol h =>
      have hall : ∀ k ∈ symbolKinds, ¬(k = .identifier ∨ k ∈ keywordKinds) := by decide
      exact absurd hkind (hall kind h)
  | integer | string | stray | unclosed => exact absurd hkind (by decide)

variable {source : String} {lx : Lexer}

/-- Where the tokens stand that are left. -/
theorem At.tokens (h : At source lx) : ∀ t ∈ lx.readToEnd.tokens, ∃ front c rest,
    Text.isSeparator c = false ∧ t.kind = (munch c rest).kind ∧
    source.toList = front ++ (munch c rest).slice ++ (munch c rest).rest ∧
    t.span = ⟨byteLength front, byteLength (front ++ (munch c rest).slice)⟩ := by
  intro t ht
  rcases h.cut t ht with ⟨front, c, rest, hc, hsplit, rfl⟩
  exact ⟨front, c, rest, hc, rfl, hsplit, rfl⟩

/-- Every token of a source has the form of its kind and is as long as it can be.
    Its slice is between the bytes of its span. A name or a keyword is a letter or
    an underscore with letters, underscores and digits behind it, no such character
    follows, and it is a keyword if and only if it is among the keywords. Digits
    are not followed by a digit, and the signs that an equals sign would turn into
    others are not followed by one. A string ends with the first quote that is no
    second half of a pair. Illegal text is a character that starts no other
    token, or the rest of the source from a quote on, in which there is no such
    quote. Whatever more of the source is taken, there is no kind that it would
    have the form of. -/
theorem read_maximal (source : String) : ∀ t ∈ (read source).tokens, ∃ front slice rest,
    source.toList = front ++ slice ++ rest ∧
    t.span = ⟨byteLength front, byteLength (front ++ slice)⟩ ∧
    Form t.kind slice ∧ Ends t.kind slice rest ∧
    (t.kind = .identifier ∨ t.kind ∈ keywordKinds →
      IsName slice ∧ (t.kind ∈ keywordKinds ↔ String.ofList slice ∈ keywords)) ∧
    ∀ kind more, more ≠ [] → more <+: rest → ¬Form kind (slice ++ more) := by
  intro t ht
  rcases (at_ofString source).tokens t ht with ⟨front, c, rest, hc, hkind, hsplit, hspan⟩
  have hformed : (munch c rest).Formed := munch_formed hc
  have hform : Form t.kind (munch c rest).slice := hkind ▸ hformed.form
  have hends : Ends t.kind (munch c rest).slice (munch c rest).rest := hkind ▸ hformed.ends
  exact ⟨front, (munch c rest).slice, (munch c rest).rest, hsplit, hspan, hform, hends, hform.word,
    fun kind more hne hmore => hform.not_longer hends hne hmore⟩

/-- A name that starts with a keyword, a number in front of a name, a string with
    two pairs in a row, and a quote that is hidden at the end. -/
def gluedSource : String :=
  "letter==1a\"\\\\\\\" \"é\"\\\""

/-- What is read from it. -/
def gluedTokens : List Token :=
  [⟨.identifier, "letter", ⟨0, 6⟩⟩, ⟨.equal, "==", ⟨6, 8⟩⟩, ⟨.integer, "1", ⟨8, 9⟩⟩,
    ⟨.identifier, "a", ⟨9, 10⟩⟩, ⟨.string, "\\\" ", ⟨10, 17⟩⟩, ⟨.illegal, "é", ⟨17, 19⟩⟩,
    ⟨.illegal, "\"\\\"", ⟨19, 22⟩⟩]

theorem read_maximal_gluedSource :
    (read gluedSource).tokens = gluedTokens ∧
    ∃ front body rest, gluedSource.toList = front ++ '"' :: (body ++ ['"']) ++ rest ∧
      byteLength front = 10 ∧ Text.Paired body ∧ ¬Text.HasBareQuote body := by
  have htokens : (read gluedSource).tokens = gluedTokens := by cbv
  have hmem : (⟨.string, "\\\" ", ⟨10, 17⟩⟩ : Token) ∈ (read gluedSource).tokens := by
    rw [htokens]
    decide
  rcases read_maximal gluedSource _ hmem with ⟨front, slice, rest, hsplit, hspan, hform, -⟩
  refine ⟨htokens, front, ?_⟩
  -- A string is neither a keyword nor a symbol.
  cases hform with
  | keyword h => exact absurd h (by decide)
  | symbol h => exact absurd h (by decide)
  | string hpaired hbare =>
      exact ⟨_, rest, hsplit, (congrArg Span.start hspan).symm, hpaired, hbare⟩

end Lexer

end Monkey
