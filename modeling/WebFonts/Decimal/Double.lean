/-!
# The value of a double

Decimal texts are computed exactly, from the integers that the bits of a double stand for. A finite
double is, up to its sign, `mantissa * 2 ^ exponent`.
-/

namespace WebFonts.Decimal

/-- The absolute value `mantissa * 2 ^ exponent` of a finite double. -/
structure Binary where
  mantissa : Nat
  exponent : Int
  /-- Whether the next smaller double is half as far away as the next greater one. -/
  narrowBelow : Bool
deriving Repr, DecidableEq

/-- The absolute value of a double. -/
inductive Magnitude where
  | nan
  | infinite
  | finite (value : Binary)
deriving Repr, DecidableEq

/-- The absolute value that 64 bits stand for. -/
def Magnitude.ofBits (bits : UInt64) : Magnitude :=
  let exponent := (bits >>> 52 &&& 0x7FF).toNat
  let fraction := (bits &&& 0xFFFFFFFFFFFFF).toNat
  if exponent = 0x7FF then
    if fraction = 0 then infinite else nan
  else if exponent = 0 then finite ⟨fraction, -1074, false⟩
  else finite ⟨Nat.pow 2 52 + fraction, (exponent : Int) - 1075, fraction = 0 && exponent ≠ 1⟩

/-- Whether the sign of 64 bits is a minus. -/
def isNegative (bits : UInt64) : Bool :=
  bits >>> 63 == 1

end WebFonts.Decimal
