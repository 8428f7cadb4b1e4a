import Monkey.Token

/-!
# Parsing Tokens

What a parser is: a function that consumes tokens from the front of a list.

A parser ends in one of three ways. It succeeds with a value, it fails with a
parse error, or its fuel does not suffice. Success and failure both hand on
the state, because a failure inside a block must not undo what was recorded
before it. Running out of fuel is kept apart from failing, so that "the
parser failed" always means that the text is at fault.

Errors are recorded and parsing goes on: `recovering` turns the failure of a
statement into an entry of the list and skips to where the next statement can
start. That is behind the next semicolon or, within a block, in front of the
next closing brace. A closing brace outside of every block is no such place,
since nothing there is waiting for it; this is the one reason why the state
counts the blocks that are open.

An error names the token that it is about. A token that cannot start an
expression has been consumed when the error arises, whereas one that was
found in place of another has not; the skipping starts accordingly, and a
refused semicolon ends its statement at once.

## Main definitions

* `ParseError`: What can be wrong with a text, and `ParseError.message`.
* `ParseState`: The unread tokens, the errors so far and the open blocks.
* `Outcome`: How a parser ends.
* `Parser`: A parser, a monad.
* `Parser.take`, `Parser.peek`, `Parser.accept`, `Parser.expect`: The ways to
  consume a token.
* `Parser.recovering`: A parser whose failures are recorded.
-/

namespace Monkey

/-- What can be wrong with a text. -/
inductive ParseError where
  /-- A token other than the one that had to follow. -/
  | expected (kind : Kind) (found : Token)
  /-- A token that cannot start an expression. -/
  | unexpected (found : Token)
  /-- An integer literal past the largest 64-bit integer. -/
  | outOfRange (literal : Token)
  deriving DecidableEq, Repr

namespace ParseError

/-- The token that an error is about. -/
def token : ParseError → Token
  | expected _ found => found
  | unexpected found => found
  | outOfRange literal => literal

/-- The text of an error, with the place that it points at. -/
def message : ParseError → String
  | expected kind found =>
    "expected next token to be `" ++ kind.name ++ "`, got `" ++ found.shown ++ "` instead "
      ++ found.span.shown
  | unexpected found =>
    "no prefix parse function for `" ++ found.shown ++ "` found " ++ found.span.shown
  | outOfRange literal =>
    "could not parse `" ++ literal.literal ++ "` as integer " ++ literal.span.shown

end ParseError

/-- What a parser reads and writes. -/
structure ParseState where
  /-- The tokens that are still unread. -/
  rest : List Token
  /-- The length of the source, at which the end of input stands. -/
  length : Nat
  /-- The errors recorded so far, in order. -/
  errors : List ParseError
  /-- How many blocks are open. -/
  openBlocks : Nat
  deriving DecidableEq, Repr

namespace ParseState

/-- The state in front of the first token. -/
def start (tokens : List Token) (length : Nat) : ParseState :=
  ⟨tokens, length, [], 0⟩

/-- The token that would be consumed next. Behind the last one it is the end
    of input. -/
def peek (s : ParseState) : Token :=
  s.rest.headD (.finish s.length)

/-- The tokens from where the next statement can start. A semicolon is passed
    over; a closing brace stays if a block is waiting for it. -/
def skip (inBlock : Bool) : List Token → List Token
  | [] => []
  | t :: ts =>
    if inBlock && t.kind == .rightBrace then t :: ts
    else if t.kind == .semicolon then ts
    else skip inBlock ts

/-- Whether an error consumed the semicolon that ends its statement. -/
def endsStatement : ParseError → Bool
  | .unexpected found => found.kind == .semicolon
  | _ => false

/-- Records an error and skips to where the next statement can start. -/
def recover (s : ParseState) (error : ParseError) : ParseState :=
  { s with
    errors := s.errors ++ [error]
    rest := if endsStatement error then s.rest else skip (s.openBlocks != 0) s.rest }

end ParseState

/-- How a parser ends. -/
inductive Outcome (α : Type) where
  /-- It found what it was looking for. -/
  | ok (value : α) (state : ParseState)
  /-- The text is at fault. -/
  | failed (error : ParseError) (state : ParseState)
  /-- The fuel did not suffice. -/
  | exhausted

/-- A parser of things of a type. -/
def Parser (α : Type) : Type :=
  ParseState → Outcome α

namespace Parser

instance : Monad Parser where
  pure a := fun s => .ok a s
  bind p f := fun s =>
    match p s with
    | .ok a s' => f a s'
    | .failed e s' => .failed e s'
    | .exhausted => .exhausted

variable {α : Type}

/-- Gives up because the fuel did not suffice. -/
def exhausted : Parser α :=
  fun _ => .exhausted

/-- Fails because of the text. -/
def fail (error : ParseError) : Parser α :=
  fun s => .failed error s

/-- The next token, which stays unread. -/
def peek : Parser Token :=
  fun s => .ok s.peek s

/-- Consumes the next token. The end of input is never used up. -/
def take : Parser Token :=
  fun s => .ok s.peek { s with rest := s.rest.tail }

/-- Consumes the next token if it is of the given kind, and tells whether it
    was. -/
def accept (kind : Kind) : Parser Bool :=
  fun s =>
    if s.peek.kind = kind then .ok true { s with rest := s.rest.tail } else .ok false s

/-- Consumes a token of the given kind and fails if there is another one. -/
def expect (kind : Kind) : Parser Token :=
  fun s =>
    if s.peek.kind = kind then .ok s.peek { s with rest := s.rest.tail }
    else .failed (.expected kind s.peek) s

/-- Runs a parser inside one more open block. -/
def inBlock (p : Parser α) : Parser α :=
  fun s =>
    -- The count goes back however the parser ends.
    match p { s with openBlocks := s.openBlocks + 1 } with
    | .ok a s' => .ok a { s' with openBlocks := s'.openBlocks - 1 }
    | .failed e s' => .failed e { s' with openBlocks := s'.openBlocks - 1 }
    | .exhausted => .exhausted

/-- Runs a parser; a failure is recorded, and there is no value then. -/
def recovering (p : Parser α) : Parser (Option α) :=
  fun s =>
    match p s with
    | .ok a s' => .ok (some a) s'
    | .failed e s' => .ok none (s'.recover e)
    | .exhausted => .exhausted

end Parser

end Monkey
