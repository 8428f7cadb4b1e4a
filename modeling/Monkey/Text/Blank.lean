/-!
# Blank Characters

Two different notions of blank text. Between tokens only the five blank
characters of ASCII separate; a line of a session, on the other hand, is
judged empty by the Unicode property `White_Space`. A vertical tab or a
no-break space is the difference between them: the first notion calls it an
illegal token, the second calls it nothing.

## Main definitions

* `isSeparator`: The blanks that may stand between tokens.
* `isWhiteSpace`: The Unicode property `White_Space`.
* `trim`: A text without the white space at its two ends.
-/

namespace Monkey

namespace Text

/-- Space, tab, line feed, form feed and carriage return: the blanks that may
    stand between tokens. -/
def isSeparator (c : Char) : Bool :=
  c == ' ' || c == '\t' || c == '\n' || c == '\x0c' || c == '\r'

/-- The Unicode property `White_Space`, by its ranges of code points. -/
def isWhiteSpace (c : Char) : Bool :=
  let n := c.toNat
  (0x09 ≤ n && n ≤ 0x0d) || n == 0x20 || n == 0x85 || n == 0xa0 || n == 0x1680 ||
    (0x2000 ≤ n && n ≤ 0x200a) || n == 0x2028 || n == 0x2029 || n == 0x202f ||
    n == 0x205f || n == 0x3000

/-- The text without the white space at its two ends. -/
def trim (text : List Char) : List Char :=
  ((text.dropWhile isWhiteSpace).reverse.dropWhile isWhiteSpace).reverse

end Text

end Monkey
