import Monkey.Parser.Expression
import Monkey.Token.Lexer

/-!
# Parsing Programs

Source text as a program.

A text is read to its end whatever it holds. What could be parsed makes up
the program, and what could not is described by the errors beside it.
`parseStrict` is for callers that must not run half a program: it gives one
or the other.

The fuel is the number of tokens and one more. Each statement consumes a
token, and so does each inner expression before it recurses.

## Main definitions

* `Parser.program`: All statements up to the end of input.
* `parseTokens`: The program and the errors in a list of tokens.
* `parse`: The program and the errors in a text.
* `parseStrict`: The program in a text without errors.
-/

namespace Monkey

namespace Parser

/-- All statements up to the end of input. -/
def program (self : Precedence → Parser Expr) : Nat → Parser Block
  | 0 => exhausted
  | n + 1 => do
    if (← peek).kind = .finish then
      return []
    else
      let s ← recovering (statement self)
      let ss ← program self n
      return s.toList ++ ss

end Parser

/-- What was found in a text: the statements that could be parsed, and what
    is wrong with the others. -/
structure Parsed where
  /-- The statements that could be parsed. -/
  program : Block
  /-- The errors, in the order in which they were recorded. -/
  errors : List ParseError

/-- The program in a list of tokens, which ends at the given length. -/
def parseTokens (tokens : List Token) (length : Nat) : Parsed :=
  let fuel := tokens.length + 1
  match Parser.program (Parser.expression fuel) fuel (.start tokens length) with
  | .ok program s => ⟨program, s.errors⟩
  -- Statements recover from their failures, and the fuel suffices.
  | .failed error s => ⟨[], s.errors ++ [error]⟩
  | .exhausted => ⟨[], []⟩

/-- The program in a source text. -/
def parse (source : String) : Parsed :=
  let reading := Lexer.read source
  parseTokens reading.tokens reading.length

/-- The program in a source text, or everything that is wrong with it. -/
def parseStrict (source : String) : Except (List ParseError) Block :=
  let parsed := parse source
  if parsed.errors.isEmpty then .ok parsed.program else .error parsed.errors

end Monkey
