import Monkey.Token
import Monkey.Text.Escape
import Monkey.Text.Blank

/-!
# Lexing

Source text as a sequence of tokens.

Reading never fails. Text that belongs to no token becomes an illegal token,
and whoever consumes the tokens reports it. One character is enough for such
a token, with one exception: a quote that is never closed takes everything
up to the end of the text with it.

`munch` reads one token from a text that starts with a character other than
a blank. It returns the source text of the token beside what remains, and the
two together are the text it was given (`munch_slice_append_rest`). This is
what makes the lexer lose nothing, and it also bounds the reading: a token is
never empty, so what remains is shorter.

A `Lexer` adds the position. Asking it for a token past the end yields the
end of input again and again; asking it as an iterator yields that token once
and then nothing.

## Main definitions

* `munch`: The longest token at the front of a text.
* `Lexer.next`: The next token, the end of input repeated forever.
* `Lexer.next?`: The next token, nothing behind the end of input.
* `Lexer.read`: The tokens of a text, and its length.

## Theorems

* `munch_slice_append_rest`: A token and what remains make up the text.
* `munch_rest_length_le`: What remains is shorter than the text was.
* `Lexer.next_rest_length_lt`: Every token but the end of input shortens what
  is unread.
-/

namespace Monkey

namespace Lexer

/-- The letters and the underscore, with which a name starts. -/
def isNameStart (c : Char) : Bool :=
  c.isAlpha || c == '_'

/-- The characters that continue a name. -/
def isNameRest (c : Char) : Bool :=
  c.isAlphanum || c == '_'

/-- The sign that a character is, if it is one and starts no longer one. -/
def sign? : Char → Option Kind
  | '+' => some .plus
  | '-' => some .minus
  | '*' => some .star
  | '/' => some .slash
  | '<' => some .less
  | '>' => some .greater
  | ',' => some .comma
  | ';' => some .semicolon
  | ':' => some .colon
  | '(' => some .leftParen
  | ')' => some .rightParen
  | '\x7b' => some .leftBrace
  | '\x7d' => some .rightBrace
  | '[' => some .leftBracket
  | ']' => some .rightBracket
  | _ => none

/-- A token cut off the front of a text. -/
structure Lexeme where
  /-- What sort of token it is. -/
  kind : Kind
  /-- The source text of the token. -/
  slice : List Char
  /-- The text that the token keeps as its literal. -/
  literal : List Char
  /-- The text behind the token. -/
  rest : List Char

namespace Lexeme

/-- A token whose literal is its source text. -/
def plain (kind : Kind) (slice rest : List Char) : Lexeme :=
  ⟨kind, slice, slice, rest⟩

end Lexeme

/-- A sign that an equals sign behind it turns into another one. -/
def munchSign (c : Char) (single double : Kind) : List Char → Lexeme
  | '=' :: rest => .plain double [c, '='] rest
  | rest => .plain single [c] rest

/-- A run of characters of one class behind the first one. -/
def munchRun (kind : List Char → Kind) (p : Char → Bool) (c : Char) (rest : List Char) :
    Lexeme :=
  let slice := c :: rest.takeWhile p
  .plain (kind slice) slice (rest.dropWhile p)

/-- A string, or the whole text if its closing quote is missing. -/
def munchString (rest : List Char) : Lexeme :=
  match Text.splitQuote rest with
  | some (body, behind) =>
    ⟨.string, '"' :: (body ++ ['"']), Text.unescapeChars body, behind⟩
  -- Without a closing quote nothing behind the opening one can be told from contents.
  | none => .plain .illegal ('"' :: rest) []

/-- A name is a keyword or an identifier. -/
def wordKind (word : List Char) : Kind :=
  (Kind.ofKeyword? (String.ofList word)).getD .identifier

/-- The longest token at the front of a text that starts with the given
    character, which is not a blank. -/
def munch (c : Char) (rest : List Char) : Lexeme :=
  match sign? c with
  | some kind => .plain kind [c] rest
  | none =>
    if c = '=' then munchSign c .assign .equal rest
    else if c = '!' then munchSign c .bang .notEqual rest
    else if c = '"' then munchString rest
    -- A digit goes on with a name but starts none, so it is asked for first.
    else if c.isDigit then munchRun (fun _ => .integer) Char.isDigit c rest
    else if isNameStart c then munchRun wordKind isNameRest c rest
    else .plain .illegal [c] rest

theorem munchSign_slice_append_rest (c : Char) (single double : Kind) (rest : List Char) :
    (munchSign c single double rest).slice ++ (munchSign c single double rest).rest
      = c :: rest := by
  unfold munchSign
  split <;> rfl

theorem munchRun_slice_append_rest (kind : List Char → Kind) (p : Char → Bool) (c : Char)
    (rest : List Char) :
    (munchRun kind p c rest).slice ++ (munchRun kind p c rest).rest = c :: rest := by
  simp only [munchRun, Lexeme.plain, List.cons_append, List.takeWhile_append_dropWhile]

theorem munchString_slice_append_rest (rest : List Char) :
    (munchString rest).slice ++ (munchString rest).rest = '"' :: rest := by
  unfold munchString
  split
  · rename_i body behind h
    simp only [List.cons_append, List.append_assoc, List.nil_append,
      Text.splitQuote_eq_append h]
  · simp only [Lexeme.plain, List.append_nil]

/-- A token and what remains make up the text that it was read from. -/
theorem munch_slice_append_rest (c : Char) (rest : List Char) :
    (munch c rest).slice ++ (munch c rest).rest = c :: rest := by
  unfold munch
  split
  · rfl
  · split
    · exact munchSign_slice_append_rest ..
    · split
      · exact munchSign_slice_append_rest ..
      · split
        · rename_i hquote
          rw [hquote]
          exact munchString_slice_append_rest rest
        · split
          · exact munchRun_slice_append_rest ..
          · split
            · exact munchRun_slice_append_rest ..
            · rfl

theorem munchSign_slice_ne_nil (c : Char) (single double : Kind) (rest : List Char) :
    (munchSign c single double rest).slice ≠ [] := by
  unfold munchSign
  split <;> exact List.cons_ne_nil _ _

theorem munchString_slice_ne_nil (rest : List Char) : (munchString rest).slice ≠ [] := by
  unfold munchString
  split <;> exact List.cons_ne_nil _ _

/-- A token is never empty. -/
theorem munch_slice_ne_nil (c : Char) (rest : List Char) : (munch c rest).slice ≠ [] := by
  unfold munch
  split
  · exact List.cons_ne_nil _ _
  · split
    · exact munchSign_slice_ne_nil _ _ _ _
    · split
      · exact munchSign_slice_ne_nil _ _ _ _
      · split
        · exact munchString_slice_ne_nil rest
        · split
          · exact List.cons_ne_nil _ _
          · split <;> exact List.cons_ne_nil _ _

/-- What remains behind a token is shorter than the text was. -/
theorem munch_rest_length_le (c : Char) (rest : List Char) :
    (munch c rest).rest.length ≤ rest.length := by
  have happend := congrArg List.length (munch_slice_append_rest c rest)
  have hpos := List.length_pos_iff.mpr (munch_slice_ne_nil c rest)
  simp only [List.length_append, List.length_cons] at happend
  omega

/-- The length of a text in bytes of its UTF-8 encoding. -/
def byteLength (text : List Char) : Nat :=
  text.foldr (fun c length => c.utf8Size + length) 0

end Lexer

/-- A reader of source text. -/
structure Lexer where
  /-- The text that is still unread. -/
  rest : List Char
  /-- How many bytes have been read. -/
  offset : Nat
  /-- Whether the iterator has yielded the end of input. -/
  exhausted : Bool

namespace Lexer

/-- A reader at the start of a text. -/
def ofString (source : String) : Lexer :=
  ⟨source.toList, 0, false⟩

/-- The next token, and the reader behind it. At the end of the text this is
    the end of input, however often one asks. -/
def next (lx : Lexer) : Token × Lexer :=
  let start := lx.offset + byteLength (lx.rest.takeWhile Text.isSeparator)
  match lx.rest.dropWhile Text.isSeparator with
  | [] => (.finish start, ⟨[], start, lx.exhausted⟩)
  | c :: rest =>
    let found := munch c rest
    let stop := start + byteLength found.slice
    (⟨found.kind, String.ofList found.literal, ⟨start, stop⟩⟩,
      ⟨found.rest, stop, lx.exhausted⟩)

/-- The next token as an iterator yields it: the end of input comes once, and
    nothing comes behind it. -/
def next? (lx : Lexer) : Option (Token × Lexer) :=
  if lx.exhausted then none
  else
    let (token, behind) := lx.next
    some (token, { behind with exhausted := token.kind == .finish })

/-- A token that is not the end of input was read from the text, so less of
    the text remains. -/
theorem next_rest_length_lt (lx : Lexer) (h : lx.next.1.kind ≠ .finish) :
    lx.next.2.rest.length < lx.rest.length := by
  have hsuffix := (List.dropWhile_suffix Text.isSeparator (l := lx.rest)).length_le
  unfold next at h ⊢
  simp only at h ⊢
  cases hdrop : lx.rest.dropWhile Text.isSeparator with
  | nil =>
      rw [hdrop] at h
      exact absurd rfl h
  | cons c rest =>
      have hmunch := munch_rest_length_le c rest
      rw [hdrop, List.length_cons] at hsuffix
      exact Nat.lt_of_le_of_lt hmunch hsuffix

/-- What a text holds: its tokens, and how long it is. The end of input stands
    at that length and is not listed. -/
structure Reading where
  /-- The tokens, in order, without the end of input. -/
  tokens : List Token
  /-- The length of the text in bytes. -/
  length : Nat

/-- Reads to the end of the text. -/
def readToEnd (lx : Lexer) : Reading :=
  if _ : lx.next.1.kind = .finish then ⟨[], lx.next.1.span.stop⟩
  else
    let behind := lx.next.2.readToEnd
    ⟨lx.next.1 :: behind.tokens, behind.length⟩
termination_by lx.rest.length
decreasing_by exact next_rest_length_lt lx (by assumption)

/-- What a source text holds. -/
def read (source : String) : Reading :=
  (ofString source).readToEnd

end Lexer

end Monkey
