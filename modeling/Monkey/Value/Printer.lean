import Monkey.Value
import Monkey.Syntax.Printer

/-!
# Printing Values

Values as text, in two forms.

The plain form is what a program prints with `puts`; a string is its own
contents there. The code form is what a session answers with: a string is
written as a literal, so that it reads like the code that made it. Inside
arrays and maps the code form is used in any case, because contents with
commas would otherwise be confused with several elements.

A value on its way out of a function shows as the value inside, in the plain
form in both cases.

There is a third form, which shows how a function is made up. It names the
parts of the object and quotes the body as text, and control characters are
escaped in it by their code points.

## Main definitions

* `Value.text`: The plain form.
* `Value.code`: The code form.
* `Value.structure?`: The parts of a function.
-/

namespace Monkey

/-- The code form of a value whose plain form is given: only a string differs
    between the two. -/
def Value.codeFrom (plain : String) : Value → String
  | .str _ contents => Text.quoted contents
  | _ => plain

mutual

/-- The plain form of a value. -/
def Value.text : Value → String
  | .nullAt _ => "null"
  | .boolAt _ b => Text.truth b
  | .int _ n => Text.signedDecimal n
  | .str _ contents => contents
  | .array _ elements => "[" ++ Text.commaSeparated (Value.codes elements) ++ "]"
  | .map _ slots => Text.braced (Text.commaSeparated (Value.slotCodes slots))
  | .fn _ params body _ => "fn(" ++ Text.commaSeparated params ++ ") " ++ Block.text body
  | .builtin _ b => b.text
  | .returned _ inner => inner.text
  | .error _ cause => "Error: " ++ cause.message

/-- The code forms of values, one by one. -/
def Value.codes : List Value → List String
  | [] => []
  | v :: vs => v.codeFrom v.text :: Value.codes vs

/-- The pairs of a map in the code form, one by one. -/
def Value.slotCodes : List (Slot Value) → List String
  | [] => []
  | ⟨_, key, value⟩ :: slots =>
    (key.codeFrom key.text ++ ": " ++ value.codeFrom value.text) :: Value.slotCodes slots

end

/-- The code form of a value. -/
def Value.code (v : Value) : String :=
  v.codeFrom v.text

namespace Text

/-- A character in a quotation that shows control characters. -/
def visibleChar (c : Char) : List Char :=
  if c == '\x00' then ['\\', '0']
  else if c.toNat < 0x20 || c == '\x7f' then
    match escapeChar c with
    | [c] => "\\u\x7b".toList ++ Nat.toDigits 16 c.toNat ++ ['\x7d']
    | escaped => escaped
  else escapeChar c

/-- A text in quotes in which every control character of ASCII is escaped. -/
def visible (text : String) : String :=
  "\"" ++ String.ofList (text.toList.flatMap visibleChar) ++ "\""

end Text

/-- The parts of a function: its parameters and its body. -/
def Value.structure? : Value → Option String
  | .fn _ params body _ =>
    let names := params.map fun p =>
      "IdentifierLiteral \x7b name: " ++ Text.visible p ++ " \x7d"
    some ("Function(Function \x7b parameters: [" ++ Text.commaSeparated names ++ "], body: "
      ++ Text.visible (Block.text body) ++ ", .. \x7d)")
  | _ => none

end Monkey
