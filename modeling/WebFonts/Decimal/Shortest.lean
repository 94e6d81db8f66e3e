import WebFonts.Decimal.Double
import WebFonts.Decimal.Plain

/-!
# The shortest decimal that reads back

A double stands for all the real numbers that are nearer to it than to its neighbours. Its shortest
text has the fewest digits that name one of these numbers, and of two such texts the one nearer to
the double; halfway between the two it is the greater one. The search compares exact integers.
-/

namespace WebFonts.Decimal

/-- The number `digits * 10 ^ exponent`. -/
structure Scientific where
  digits : Nat
  exponent : Int
deriving Repr, DecidableEq

namespace Binary

variable (value : Binary)

/-! Quantities are multiples of a quarter of the unit `2 ^ exponent`, and are compared with
multiples of a power of ten by cross-multiplication. -/

/-- The value in quarters. -/
def quarters : Nat :=
  4 * value.mantissa

/-- The lower end of the numbers that read back, in quarters. -/
def lowest : Nat :=
  value.quarters - if value.narrowBelow then 1 else 2

/-- The upper end of the numbers that read back, in quarters. -/
def highest : Nat :=
  value.quarters + 2

/-- A number of quarters over `10 ^ grid`, as the numerator of a fraction. -/
def numerator (grid : Int) (quarters : Nat) : Nat :=
  quarters * Nat.pow 2 (value.exponent - 2).toNat * Nat.pow 10 (-grid).toNat

/-- The denominator of the fractions of `numerator`. -/
def denominator (grid : Int) : Nat :=
  Nat.pow 2 (2 - value.exponent).toNat * Nat.pow 10 grid.toNat

/-- Whether `digits * 10 ^ grid` lies among the numbers that read back as the value. The two ends
belong to them exactly when the mantissa is even. -/
def readsBack (grid : Int) (digits : Nat) : Bool :=
  let candidate := digits * value.denominator grid
  let low := value.numerator grid value.lowest
  let high := value.numerator grid value.highest
  if value.mantissa % 2 = 0 then low ≤ candidate && candidate ≤ high
  else low < candidate && candidate < high

/-- The least power of ten above the value: it is near the one that the binary exponent tells. -/
def scale : Int :=
  let log := (value.mantissa.log2 : Int) + value.exponent
  let guess := log * 30103 / 100000 - 1
  let above (k : Int) : Bool := value.numerator k value.quarters < value.denominator k
  ((List.range 5).map fun i : Nat => guess + i).find? above |>.getD (guess + 5)

/-- The nearer of the two multiples of `10 ^ grid` around the value that reads back, if one does. -/
def onGrid? (grid : Int) : Option Scientific :=
  let numerator := value.numerator grid value.quarters
  let denominator := value.denominator grid
  let below := numerator / denominator
  let above := below + 1
  match value.readsBack grid below, value.readsBack grid above with
  | true, true =>
    some ⟨if 2 * numerator < (below + above) * denominator then below else above, grid⟩
  | true, false => some ⟨below, grid⟩
  | false, true => some ⟨above, grid⟩
  | false, false => none

/-- The value itself as a decimal number. -/
def exact : Scientific :=
  if value.exponent ≥ 0 then ⟨value.mantissa * Nat.pow 2 value.exponent.toNat, 0⟩
  else ⟨value.mantissa * Nat.pow 5 (-value.exponent).toNat, value.exponent⟩

/-- The shortest decimal that reads back as the value. Seventeen digits are enough. -/
def shortest : Scientific :=
  if value.mantissa = 0 then ⟨0, 0⟩
  else
    let scale := value.scale
    (List.range 17).findSome? (fun i : Nat => value.onGrid? (scale - 1 - i)) |>.getD value.exact

end Binary

/-- The shortest text of a double, written without an exponent. -/
def shortestText (x : Float) : String :=
  let sign := if isNegative x.toBits then "-" else ""
  match Magnitude.ofBits x.toBits with
  | .nan => "NaN"
  | .infinite => sign ++ "inf"
  | .finite value =>
    let decimal := value.shortest
    sign ++ plain decimal.digits decimal.exponent

end WebFonts.Decimal
