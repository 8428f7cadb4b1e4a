/-!
# Tokens

The words and signs of the language.

A token remembers its kind, its literal and the bytes of the source it was
read from. The literal of a string token is what the string contains, so the
quotes and escapes are gone from it; that of every other token is the source
text itself. The span counts bytes of the UTF-8 encoding, and it is what an
error message points at.

Behind the last token of a text there is always one more, the end of input.
It has an empty literal and an empty span, and only its position
distinguishes one such token from another.

## Main definitions

* `Kind`: What sort of word or sign a token is.
* `Kind.name`: A kind as it is named in messages; for a sign, the sign.
* `Kind.ofKeyword?`: The kind of a keyword.
* `Token`: A word or sign and where it stands.
* `Token.shown`: A token as it is quoted in messages.
-/

namespace Monkey

/-- What sort of word or sign a token is. -/
inductive Kind where
  /-- The sign `=` of a binding. -/
  | assign
  | plus
  | minus
  | bang
  | star
  | slash
  /-- The sign `==`. -/
  | equal
  /-- The sign `!=`. -/
  | notEqual
  | less
  | greater
  | comma
  | semicolon
  | colon
  | leftParen
  | rightParen
  | leftBrace
  | rightBrace
  | leftBracket
  | rightBracket
  /-- A name that is not a keyword. -/
  | identifier
  /-- A run of digits. -/
  | integer
  /-- A text between quotes. -/
  | string
  | fnWord
  | letWord
  | trueWord
  | falseWord
  | ifWord
  | elseWord
  | returnWord
  /-- Text that is no token of the language. -/
  | illegal
  /-- The end of input. -/
  | finish
  deriving DecidableEq, Repr, Inhabited

namespace Kind

/-- A kind as messages name it. Signs and keywords are named by their text,
    which is also how an operator is printed. -/
def name : Kind → String
  | assign => "="
  | plus => "+"
  | minus => "-"
  | bang => "!"
  | star => "*"
  | slash => "/"
  | equal => "=="
  | notEqual => "!="
  | less => "<"
  | greater => ">"
  | comma => ","
  | semicolon => ";"
  | colon => ":"
  | leftParen => "("
  | rightParen => ")"
  | leftBrace => "\x7b"
  | rightBrace => "\x7d"
  | leftBracket => "["
  | rightBracket => "]"
  | identifier => "identifier"
  | integer => "integer"
  | string => "string"
  | fnWord => "fn"
  | letWord => "let"
  | trueWord => "true"
  | falseWord => "false"
  | ifWord => "if"
  | elseWord => "else"
  | returnWord => "return"
  | illegal => "illegal"
  | finish => "end of input"

/-- The kind of a keyword; a word that is none has no such kind. -/
def ofKeyword? (word : String) : Option Kind :=
  [fnWord, letWord, trueWord, falseWord, ifWord, elseWord, returnWord].find? (·.name == word)

/-- A keyword is found under its own text. -/
theorem name_of_ofKeyword? {word : String} {k : Kind} (h : ofKeyword? word = some k) :
    k.name = word := by
  unfold ofKeyword? at h
  have hfound := List.find?_some h
  exact beq_iff_eq.mp hfound

end Kind

/-- A stretch of the source, in bytes. -/
structure Span where
  /-- The first byte. -/
  start : Nat
  /-- The byte behind the last one. -/
  stop : Nat
  deriving DecidableEq, Repr, Inhabited

namespace Span

/-- A span as messages show it. -/
def shown (s : Span) : String :=
  "(at " ++ toString s.start ++ ":" ++ toString s.stop ++ ")"

end Span

/-- A word or sign of the language and where it stands. -/
structure Token where
  /-- What sort of token it is. -/
  kind : Kind
  /-- The source text, or what a string contains. -/
  literal : String
  /-- Where it was read. -/
  span : Span
  deriving DecidableEq, Repr, Inhabited

namespace Token

/-- The end of a text of the given length. -/
def finish (length : Nat) : Token :=
  ⟨.finish, "", ⟨length, length⟩⟩

/-- A token as messages quote it. A string gets its quotes back but not its
    escapes. -/
def shown (t : Token) : String :=
  match t.kind with
  | .finish => Kind.finish.name
  | .string => "\"" ++ t.literal ++ "\""
  | _ => t.literal

end Token

end Monkey
