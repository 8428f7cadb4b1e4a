/-!
# Decimal Text

Integers in decimal digits, the one form in which the language writes and
reads them.

A written integer may carry a sign, but a literal never does: the minus in
front of a number is an operator. Reading therefore takes digits only, and it
refuses a number past the largest 64-bit integer instead of wrapping it.

## Main definitions

* `decimal`: The digits of a natural number.
* `signedDecimal`: A 64-bit integer with its sign.
* `readDecimal`: The number that a run of digits denotes.
* `readInteger?`: The 64-bit integer that a literal denotes, if it fits.
-/

namespace Monkey

namespace Text

/-- The decimal digits of a number, without leading zeros. -/
def decimal (n : Nat) : String :=
  String.ofList (Nat.toDigits 10 n)

/-- A 64-bit integer in decimal, the smallest one included: its magnitude is
    taken among the natural numbers, where it does not overflow. -/
def signedDecimal (n : Int64) : String :=
  if n.toInt < 0 then "-" ++ decimal n.toInt.natAbs else decimal n.toInt.natAbs

/-- The number that a run of digits denotes; leading zeros change nothing. -/
def readDecimal (digits : List Char) : Nat :=
  Nat.ofDigitChars 10 digits 0

/-- The 64-bit integer that an unsigned literal denotes, if it is in range. -/
def readInteger? (literal : String) : Option Int64 :=
  let value := readDecimal literal.toList
  if value ≤ 0x7fffffffffffffff then some (Int64.ofNat value) else none

/-- Reading what was written gives the number back. -/
theorem readDecimal_toDigits (n : Nat) : readDecimal (Nat.toDigits 10 n) = n :=
  Nat.ofDigitChars_toDigits (by decide) (by decide)

end Text

end Monkey
