/-!
# Decimal numbers without exponents

A decimal number is written with all its digits: as many zeros as it takes before or behind them,
no zero at the end of a fraction, and a point only before a digit.
-/

namespace WebFonts.Decimal

/-- The decimal digits of a number. -/
def digitsOf (n : Nat) : List Char :=
  Nat.toDigits 10 n

/-- The digits of a number, with zeros in front to make up a length. -/
def padded (length n : Nat) : List Char :=
  let digits := digitsOf n
  List.replicate (length - digits.length) '0' ++ digits

/-- The digits without the zeros at their end. -/
def dropTrailingZeros (digits : List Char) : List Char :=
  (digits.reverse.dropWhile (· == '0')).reverse

/-- The number `digits * 10 ^ exponent` as it is written. -/
def plain (digits : Nat) (exponent : Int) : String :=
  if exponent ≥ 0 then String.ofList (digitsOf (digits * Nat.pow 10 exponent.toNat))
  else
    let places := (-exponent).toNat
    let whole := digitsOf (digits / Nat.pow 10 places)
    let fraction := dropTrailingZeros (padded places (digits % Nat.pow 10 places))
    String.ofList (if fraction.isEmpty then whole else whole ++ '.' :: fraction)

end WebFonts.Decimal
