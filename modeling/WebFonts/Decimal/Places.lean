import WebFonts.Decimal.Double
import WebFonts.Decimal.Plain

/-!
# A fixed number of decimal places

`Binary.roundTo` rounds the exact value of a double to a number of places; a value halfway between
two decimals goes to the even one. `roundDiv_near` says that no other decimal is nearer.
-/

namespace WebFonts.Decimal

/-- The integer nearest to `num / den`. Halfway between two integers it is the even one. -/
def roundDiv (num den : Nat) : Nat :=
  let quotient := num / den
  match compare (2 * (num % den)) den with
  | .lt => quotient
  | .gt => quotient + 1
  | .eq => if quotient % 2 = 0 then quotient else quotient + 1

/-- The rounded quotient is at most half a unit away from the exact one. -/
theorem roundDiv_near {num den : Nat} (h : 0 < den) :
    2 * (roundDiv num den * den) ≤ 2 * num + den ∧
      2 * num ≤ 2 * (roundDiv num den * den) + den := by
  have hdiv : den * (num / den) + num % den = num := Nat.div_add_mod num den
  have hmod : num % den < den := Nat.mod_lt num h
  have hup : (num / den + 1) * den = den * (num / den) + den := by
    rw [Nat.add_mul, Nat.mul_comm, Nat.one_mul]
  have hdown : num / den * den = den * (num / den) := Nat.mul_comm _ _
  unfold roundDiv
  dsimp only
  split
  · next hlt => rw [Nat.compare_eq_lt] at hlt; omega
  · next hgt => rw [Nat.compare_eq_gt] at hgt; omega
  · next heq => rw [Nat.compare_eq_eq] at heq; split <;> omega

/-- The value in units of the last of a number of decimal places, rounded. -/
def Binary.roundTo (places : Nat) (value : Binary) : Nat :=
  roundDiv (value.mantissa * Nat.pow 2 value.exponent.toNat * Nat.pow 10 places)
    (Nat.pow 2 (-value.exponent).toNat)

/-- A double with at most the given number of decimal places. A number that rounds to zero has no
sign. -/
def atMostPlaces (places : Nat) (x : Float) : String :=
  let sign := if isNegative x.toBits then "-" else ""
  match Magnitude.ofBits x.toBits with
  | .nan => "NaN"
  | .infinite => sign ++ "inf"
  | .finite value =>
    let units := value.roundTo places
    (if units = 0 then "" else sign) ++ plain units (-places)

end WebFonts.Decimal
