import Mathlib
import WebFonts.Decimal.Double

/-!
# Doubles as multiples of powers of two

The arithmetic of doubles is exact arithmetic whose result is rounded. `value` tells what a double
is: not a number, infinite, a zero, or a mantissa times a power of two, with a sign. Two things are
followed through products and quotients:

* the **sign** (`signOf`, and `Toward` where a result may also be a zero or not a number);
* the **binade**, the exponent of the greatest power of two that is not above the absolute value
  (`Below`, `Between`). Rounding raises it by at most one, so that bounds on the factors bound the
  result, and a result below the greatest binade is finite (`below_mul`, `below_div`,
  `between_mul`, `between_div`).

`exists_magnitude` and `isNegative_eq` say that decimal texts are made from the same mantissa,
exponent and sign.
-/

namespace WebFonts.Double

open Float.Model (Format UnpackedFloat totalExponent)
open Float.Model.UnpackedFloat
open Decimal (Magnitude isNegative)

/-! ### Values -/

/-- What a double is. -/
def value (x : Float) : UnpackedFloat :=
  x.toModel.unpack

/-- What a result of arithmetic becomes when it is kept as a double. -/
def settle (u : UnpackedFloat) : UnpackedFloat :=
  (Float.Model.pack u).unpack

theorem value_mul (x y : Float) : value (x * y) = settle (mul .binary64 (value x) (value y)) := rfl

theorem value_div (x y : Float) : value (x / y) = settle (div .binary64 (value x) (value y)) := rfl

theorem settle_eq (u : UnpackedFloat) : settle u = unpack .binary64 (pack .binary64 u) := rfl

@[simp] theorem settle_infinity (s : Sign) : settle (.infinity s) = .infinity s := by
  cases s <;> rfl

@[simp] theorem settle_zero (s : Sign) : settle (.zero s) = .zero s := by
  cases s <;> rfl

/-! ### Fields -/

/-- The sign in the bits of a double. -/
def signField (bits : BitVec 64) : Sign :=
  Sign.ofBitVec (@unpackSign .binary64 bits)

/-- The exponent in the bits of a double. -/
def exponentField (bits : BitVec 64) : BitVec 11 :=
  @unpackExponent .binary64 bits

/-- The fraction in the bits of a double. -/
def fractionField (bits : BitVec 64) : BitVec 52 :=
  @unpackMantissa .binary64 bits

/-- The double with a sign, an exponent and a fraction. -/
def assemble (s : Sign) (exponent : BitVec 11) (fraction : BitVec 52) : UnpackedFloat :=
  if exponent = -1#11 then if fraction = 0#52 then .infinity s else .notANumber
  else if exponent = 0#11 then
    if h : fraction = 0#52 then .zero s
    else .finite s fraction.toNat (-1074)
      (by simpa [BitVec.toNat_pos, BitVec.pos_iff_ne_zero] using h)
  else .finite s (2 ^ 52 + fraction.toNat) (exponent.toNat - 1075) (by omega)

theorem unpack_eq_assemble (bits : BitVec 64) :
    unpack .binary64 bits =
      assemble (signField bits) (exponentField bits) (fractionField bits) := by
  have himplicit (fraction : BitVec 52) :
      (1#1 ++ fraction).toNat = 2 ^ 52 + fraction.toNat := by
    rw [BitVec.toNat_append, ← Nat.shiftLeft_add_eq_or_of_lt fraction.isLt]
    rfl
  rw [unpack, assemble, signField, exponentField, fractionField]
  split
  · rfl
  · split
    · rename_i hmin
      simp only [hmin]
      rfl
    · simp only [himplicit]
      rfl

theorem value_eq_assemble (x : Float) :
    value x = assemble (signField x.toBits.toBitVec) (exponentField x.toBits.toBitVec)
      (fractionField x.toBits.toBitVec) :=
  unpack_eq_assemble _

theorem unpack_packComponents (s : Sign) (exponent : BitVec 11) (fraction : BitVec 52) :
    unpack .binary64 (packComponents .binary64 s exponent fraction) =
      assemble s exponent fraction := by
  have hsign : signField (packComponents .binary64 s exponent fraction) = s := by
    simp only [signField, unpackSign, packComponents, BitVec.extractLsb]
    rw [BitVec.extractLsb'_append_eq_of_le (by omega),
      BitVec.extractLsb'_append_eq_of_le (by omega)]
    cases s <;> rfl
  rw [unpack_eq_assemble, hsign, exponentField, fractionField, unpackMantissa_packComponents,
    unpackExponent_packComponents]

/-! ### Canonical mantissas and exponents -/

/-- The mantissa and the exponent of a double. -/
structure IsCanonical (m : Nat) (e : Int) : Prop where
  lt : m < 2 ^ 53
  ge : -1074 ≤ e
  le : e ≤ 971
  normal : 2 ^ 52 ≤ m ∨ e = -1074

theorem isCanonical_of_assemble {s t : Sign} {exponent : BitVec 11} {fraction : BitVec 52}
    {m : Nat} {e : Int} {hm : 0 < m} (h : assemble s exponent fraction = .finite t m e hm) :
    IsCanonical m e := by
  have hexponent := exponent.isLt
  have hfraction := fraction.isLt
  unfold assemble at h
  split at h
  · split at h <;> cases h
  · rename_i hmax
    have hmax : exponent.toNat ≠ 2047 := fun heq => hmax (BitVec.eq_of_toNat_eq heq)
    split at h
    · split at h <;> cases h
      exact ⟨by omega, by omega, by omega, .inr rfl⟩
    · rename_i hmin
      have hmin : exponent.toNat ≠ 0 := fun heq => hmin (BitVec.eq_of_toNat_eq heq)
      cases h
      exact ⟨by omega, by omega, by omega, .inl (by omega)⟩

theorem isCanonical_of_value {x : Float} {s : Sign} {m : Nat} {e : Int} {hm : 0 < m}
    (h : value x = .finite s m e hm) : IsCanonical m e :=
  isCanonical_of_assemble ((value_eq_assemble x).symm.trans h)

theorem ofNat_ne {n k : Nat} (hn : n < 2 ^ 11) (hk : k < 2 ^ 11) (hne : n ≠ k) :
    BitVec.ofNat 11 n ≠ BitVec.ofNat 11 k := by
  intro h
  have hnat := congrArg BitVec.toNat h
  rw [BitVec.toNat_ofNat, BitVec.toNat_ofNat, Nat.mod_eq_of_lt hn, Nat.mod_eq_of_lt hk] at hnat
  exact hne hnat

theorem settle_of_isCanonical {s : Sign} {m : Nat} {e : Int} (hm : 0 < m) (h : IsCanonical m e) :
    settle (.finite s m e hm) = .finite s m e hm := by
  obtain ⟨hlt, hge, hle, hnormal⟩ := h
  have hbias : Format.binary64.exponentBias = 1023 := rfl
  have hbits : Format.binary64.mantissaBits = 53 := rfl
  have hbiased : e + (1023 : Nat) + (52 : Nat) = e + 1075 := by omega
  have hfits : ¬ 2 ^ 11 ≤ (e + 1075).toNat + 1 := by omega
  simp only [settle_eq, pack, hbias, hbits, hbiased, if_neg hfits]
  split
  · rename_i hlog
    have hbig : 2 ^ 52 ≤ m := (Nat.le_log2 hm.ne').mp (by omega)
    have hmax : BitVec.ofNat 11 (e + 1075).toNat ≠ -1#11 :=
      ofNat_ne (by omega) (show 2047 < 2 ^ 11 by decide)
        (show (e + 1075).toNat ≠ 2047 by omega)
    have hmin : BitVec.ofNat 11 (e + 1075).toNat ≠ 0#11 :=
      ofNat_ne (by omega) (by decide) (by omega)
    rw [unpack_packComponents, assemble, if_neg hmax, if_neg hmin]
    congr
    · rw [BitVec.toNat_ofNat]
      omega
    · rw [BitVec.toNat_ofNat, Nat.mod_eq_of_lt (by omega)]
      omega
  · rename_i hlog
    have hlog' := (Nat.log2_lt hm.ne').mpr hlt
    have hsmall : m < 2 ^ 52 := (Nat.log2_lt hm.ne').mp (by omega)
    obtain rfl : e = -1074 := hnormal.resolve_left (by omega)
    have hfraction : (BitVec.ofNat 52 m).toNat = m := by
      rw [BitVec.toNat_ofNat, Nat.mod_eq_of_lt hsmall]
    have hzero : BitVec.ofNat 52 m ≠ 0#52 := fun h =>
      hm.ne' (hfraction.symm.trans (congrArg BitVec.toNat h))
    rw [unpack_packComponents, assemble, if_neg (by decide), if_pos rfl, dif_neg hzero]
    congr

/-- Negation is exact. -/
theorem value_neg (x : Float) : value (-x) = (value x).neg := by
  have hsettle : value (-x) = settle (value x).neg := rfl
  rw [hsettle]
  cases hu : value x with
  | finite s m e hm => exact settle_of_isCanonical hm (isCanonical_of_value hu)
  | zero s => exact settle_zero _
  | infinity s => exact settle_infinity _
  | notANumber => rfl

/-- The absolute value is exact. -/
theorem value_abs (x : Float) : value x.abs = (value x).abs := by
  have hsettle : value x.abs = settle (value x).abs := rfl
  rw [hsettle]
  cases hu : value x with
  | finite s m e hm => exact settle_of_isCanonical hm (isCanonical_of_value hu)
  | zero s => exact settle_zero _
  | infinity s => exact settle_infinity _
  | notANumber => rfl

/-! ### Signs -/

/-- The sign of a value that has one. -/
def signOf : UnpackedFloat → Option Sign
  | .notANumber => none
  | .infinity s | .zero s | .finite s _ _ _ => some s

theorem signOf_assemble {s : Sign} {exponent : BitVec 11} {fraction : BitVec 52}
    (h : exponent = -1#11 → fraction = 0#52) :
    signOf (assemble s exponent fraction) = some s := by
  unfold assemble
  split
  · rename_i hmax
    rw [if_pos (h hmax)]
    rfl
  · split
    · split <;> rfl
    · rfl

theorem signOf_settle (u : UnpackedFloat) : signOf (settle u) = signOf u := by
  cases u with
  | notANumber => rfl
  | infinity s => rw [settle_infinity]
  | zero s => rw [settle_zero]
  | finite s m e hm =>
    rw [settle_eq, pack]
    split
    · exact (congrArg signOf (unpack_packComponents ..)).trans (signOf_assemble fun _ => rfl)
    · rename_i hmax
      split <;> refine (congrArg signOf (unpack_packComponents ..)).trans
        (signOf_assemble fun h => absurd h ?_)
      · have hlt := Nat.lt_of_not_le hmax
        exact ofNat_ne (Nat.lt_of_succ_lt hlt) (show 2047 < 2 ^ 11 by decide)
          (Nat.ne_of_lt (Nat.lt_of_succ_lt_succ hlt))
      · decide

/-! ### Rounding -/

/-- The number of digits of a mantissa that are rounded off. -/
def excess (m : Nat) (e : Int) : Nat :=
  (max (m.log2 + e - 52) (-1074) - e).toNat

theorem mantissa_shiftRight (em : ExtendedMantissa) (n : Nat) :
    (em >>> n).mantissa = em.mantissa / 2 ^ n := by
  induction n with
  | zero => exact (Nat.div_one _).symm
  | succ n ih =>
    have hstep : (em >>> (n + 1)).mantissa = (em >>> n).mantissa / 2 := rfl
    rw [hstep, ih, Nat.div_div_eq_div_mul, Nat.pow_succ]

theorem roundedMantissa_mem (em : ExtendedMantissa) :
    em.roundedMantissa = em.mantissa ∨ em.roundedMantissa = em.mantissa + 1 := by
  obtain ⟨m, round, sticky⟩ := em
  have : m % 2 = 0 ∨ m % 2 = 1 := Nat.mod_two_eq_zero_or_one m
  cases round <;> cases sticky <;>
    simp [ExtendedMantissa.roundedMantissa, ExtendedMantissa.accuracy,
      Accuracy.roundToNearestEven, this]

theorem shiftToTargetExponent_eq (m : Nat) (e : Int) (a : Accuracy) :
    shiftToTargetExponent .binary64 m e a =
      (ExtendedMantissa.ofMantissaAndAccuracy m a >>> excess m e, e + excess m e) := by
  have htarget : Format.binary64.targetExponent (totalExponent m e) =
      max (m.log2 + e - 52) (-1074) := by
    have hbits : Format.binary64.mantissaBits = 53 := rfl
    have hmin : Format.binary64.minExponent = -1074 := rfl
    rw [Format.targetExponent, totalExponent, hbits, hmin]
    congr 1
    omega
  rw [shiftToTargetExponent, htarget, shiftToExponent, excess]

theorem mantissa_ofMantissaAndAccuracy (m : Nat) (a : Accuracy) :
    (ExtendedMantissa.ofMantissaAndAccuracy m a).mantissa = m := by
  cases a with
  | exact => rfl
  | inexact o => cases o <;> rfl

theorem div_excess_lt (m : Nat) (e : Int) : m / 2 ^ excess m e < 2 ^ 53 := by
  rw [Nat.div_lt_iff_lt_mul (Nat.two_pow_pos _), ← Nat.pow_add]
  refine Nat.lt_of_lt_of_le Nat.lt_log2_self (Nat.pow_le_pow_right (by decide) ?_)
  unfold excess
  omega

theorem excess_eq_zero {m : Nat} {e : Int} (hm : m < 2 ^ 53) (he : -1074 ≤ e) :
    excess m e = 0 := by
  have hlog : m.log2 ≤ 52 := by
    rcases Nat.eq_zero_or_pos m with rfl | hpos
    · simp
    · have := (Nat.log2_lt hpos.ne').mpr hm
      omega
  unfold excess
  omega

/-- A mantissa is rounded to a neighbouring integer, and cut once more if it became too long. -/
theorem exists_roundWithAccuracy_eq (s : Sign) (m : Nat) (e : Int) (a : Accuracy) :
    ∃ r, (r = m / 2 ^ excess m e ∨ r = m / 2 ^ excess m e + 1) ∧
      roundWithAccuracy .binary64 s m e a =
        if h : r / 2 ^ excess r (e + excess m e) = 0 then .zero s
        else .finite s (r / 2 ^ excess r (e + excess m e))
          (e + excess m e + excess r (e + excess m e)) (Nat.pos_of_ne_zero h) := by
  refine ⟨(ExtendedMantissa.ofMantissaAndAccuracy m a >>> excess m e).roundedMantissa, ?_, ?_⟩
  · have hmem := roundedMantissa_mem (ExtendedMantissa.ofMantissaAndAccuracy m a >>> excess m e)
    rwa [mantissa_shiftRight, mantissa_ofMantissaAndAccuracy] at hmem
  · simp only [roundWithAccuracy, shiftToTargetExponent_eq, mantissa_shiftRight,
      mantissa_ofMantissaAndAccuracy]

/-- A result is rounded to one of the two neighbouring multiples of a power of two. -/
theorem exists_rounded (s : Sign) (m : Nat) (e : Int) (a : Accuracy) :
    ∃ r, (r = m / 2 ^ excess m e ∨ r = m / 2 ^ excess m e + 1) ∧
      roundWithAccuracy .binary64 s m e a =
        if h : r = 0 then .zero s
        else if r = 2 ^ 53 then .finite s (2 ^ 52) (e + excess m e + 1) (by decide)
        else .finite s r (e + excess m e) (Nat.pos_of_ne_zero h) := by
  obtain ⟨r, hr, heq⟩ := exists_roundWithAccuracy_eq s m e a
  refine ⟨r, hr, heq.trans ?_⟩
  have hlt := div_excess_lt m e
  have hge : -1074 ≤ e + excess m e := by unfold excess; omega
  by_cases htop : r = 2 ^ 53
  · have hexcess : excess r (e + excess m e) = 1 := by
      rw [htop, excess, Nat.log2_two_pow]
      omega
    rw [hexcess, htop]
    rfl
  · have hexcess : excess r (e + excess m e) = 0 := excess_eq_zero (by omega) hge
    simp only [hexcess, Nat.pow_zero, Nat.div_one, Int.natCast_zero, Int.add_zero, if_neg htop]

theorem signOf_roundWithAccuracy (s : Sign) (m : Nat) (e : Int) (a : Accuracy) :
    signOf (roundWithAccuracy .binary64 s m e a) = some s := by
  obtain ⟨r, -, heq⟩ := exists_rounded s m e a
  rw [heq]
  split <;> [skip; split] <;> rfl

/-! ### Binades -/

/-- Finite, and less than `2 ^ (hi + 1)` in absolute value. -/
inductive Below (hi : Int) : UnpackedFloat → Prop where
  | zero (s : Sign) : Below hi (.zero s)
  | finite {s : Sign} {m : Nat} {e : Int} {hm : 0 < m} (h : m.log2 + e ≤ hi) :
    Below hi (.finite s m e hm)

/-- Finite, at least `2 ^ lo` in absolute value, and less than `2 ^ (hi + 1)`. -/
inductive Between (lo hi : Int) : UnpackedFloat → Prop where
  | finite {s : Sign} {m : Nat} {e : Int} {hm : 0 < m} (hlo : lo ≤ m.log2 + e)
    (hhi : m.log2 + e ≤ hi) : Between lo hi (.finite s m e hm)

variable {u : UnpackedFloat} {lo hi lo' hi' : Int}

instance : Decidable (Between lo hi u) :=
  match u with
  | .finite _ m e _ =>
    if h : lo ≤ m.log2 + e ∧ m.log2 + e ≤ hi then .isTrue (.finite h.1 h.2)
    else .isFalse fun | .finite hlo hhi => h ⟨hlo, hhi⟩
  | .zero _ | .infinity _ | .notANumber => .isFalse nofun

theorem Between.below : Between lo hi u → Below hi u
  | .finite _ hhi => .finite hhi

theorem Below.isFinite : Below hi u → u.isFinite = true
  | .zero _ | .finite _ => rfl

theorem exists_signOf (h : u.isFinite = true) : ∃ s, signOf u = some s := by
  cases u <;> first | exact ⟨_, rfl⟩ | cases h

theorem Below.abs : Below hi u → Below hi u.abs
  | .zero _ => .zero _
  | .finite h => .finite h

theorem Below.mono (hle : hi ≤ hi') : Below hi u → Below hi' u
  | .zero s => .zero s
  | .finite h => .finite (Int.le_trans h hle)

theorem Between.mono (hle : lo' ≤ lo) (hle' : hi ≤ hi') : Between lo hi u → Between lo' hi' u
  | .finite hlo hhi => .finite (Int.le_trans hle hlo) (Int.le_trans hhi hle')

/-- A mantissa is written with all its digits, unless the exponent is the least. -/
def Filled (m : Nat) (e : Int) : Prop :=
  2 ^ 52 ≤ m ∨ e ≤ -1074

section Round

variable {s : Sign} {m : Nat} {e : Int} {a : Accuracy}

/-- A rounded result stays in its binade or reaches the next power of two. -/
theorem between_settle_round (hm : Filled m e) (hlo : -1022 ≤ m.log2 + e)
    (hhi : m.log2 + e ≤ 1022) :
    Between (m.log2 + e) (m.log2 + e + 1) (settle (roundWithAccuracy .binary64 s m e a)) := by
  have hlog : 52 ≤ m.log2 := by
    rcases hm with hm | he
    · exact (Nat.le_log2 (by omega)).mpr hm
    · omega
  have hexcess : excess m e = m.log2 - 52 := by unfold excess; omega
  have hquot : 2 ^ 52 ≤ m / 2 ^ excess m e := by
    rw [Nat.le_div_iff_mul_le (Nat.two_pow_pos _), ← Nat.pow_add, hexcess,
      Nat.add_sub_cancel' hlog]
    exact Nat.log2_self_le (by rintro rfl; simp at hlog)
  have hlt := div_excess_lt m e
  obtain ⟨r, hr, heq⟩ := exists_rounded s m e a
  rw [heq, dif_neg (by omega)]
  split
  · rw [settle_of_isCanonical _ ⟨by decide, by omega, by omega, .inl (Nat.le_refl _)⟩]
    have hlogr : (2 ^ 52).log2 = 52 := Nat.log2_two_pow
    exact .finite (by omega) (by omega)
  · have hlogr : r.log2 = 52 := (Nat.log2_eq_iff (by omega)).mpr ⟨by omega, by omega⟩
    rw [settle_of_isCanonical _ ⟨by omega, by omega, by omega, .inl (by omega)⟩]
    exact .finite (by omega) (by omega)

/-- A rounded result is finite if it is below the greatest binade. -/
theorem below_settle_round (hm : Filled m e) (hhi : m.log2 + e ≤ hi) (hmin : -1022 ≤ hi)
    (hmax : hi ≤ 1022) : Below (hi + 1) (settle (roundWithAccuracy .binary64 s m e a)) := by
  by_cases hlo : -1022 ≤ m.log2 + e
  · exact (between_settle_round hm hlo (by omega)).below.mono (by omega)
  · have he : e ≤ -1074 := by
      rcases hm with hm | he
      · have := (Nat.le_log2 (by omega)).mpr hm
        omega
      · exact he
    -- Multiples of the least double are left, and at most `2 ^ 52` of them.
    have hexcess : e + excess m e = -1074 := by unfold excess; omega
    have hquot : m / 2 ^ excess m e < 2 ^ 52 := by
      rw [Nat.div_lt_iff_lt_mul (Nat.two_pow_pos _), ← Nat.pow_add]
      exact Nat.lt_of_lt_of_le Nat.lt_log2_self (Nat.pow_le_pow_right (by decide) (by omega))
    obtain ⟨r, hr, heq⟩ := exists_rounded s m e a
    rw [heq]
    split
    · exact (settle_zero s).symm ▸ .zero s
    · rename_i hr0
      rw [if_neg (by omega), hexcess]
      have hlogr : r.log2 < 53 := (Nat.log2_lt hr0).mpr (by omega)
      rw [settle_of_isCanonical _ ⟨by omega, by omega, by omega, .inr rfl⟩]
      exact .finite (by omega)

end Round

theorem log2_mul {m n : Nat} (hm : 0 < m) (hn : 0 < n) :
    m.log2 + n.log2 ≤ (m * n).log2 ∧ (m * n).log2 ≤ m.log2 + n.log2 + 1 := by
  constructor
  · rw [Nat.le_log2 (Nat.mul_pos hm hn).ne', Nat.pow_add]
    exact Nat.mul_le_mul (Nat.log2_self_le hm.ne') (Nat.log2_self_le hn.ne')
  · have hlt : m * n < 2 ^ (m.log2 + 1) * 2 ^ (n.log2 + 1) :=
      Nat.mul_lt_mul'' Nat.lt_log2_self Nat.lt_log2_self
    rw [← Nat.pow_add] at hlt
    have := (Nat.log2_lt (Nat.mul_pos hm hn).ne').mpr hlt
    omega

theorem log2_shiftLeft {m : Nat} (hm : 0 < m) (k : Nat) : (m <<< k).log2 = m.log2 + k := by
  rw [Nat.shiftLeft_eq, Nat.log2_eq_iff (Nat.mul_pos hm (Nat.two_pow_pos k)).ne', Nat.pow_add,
    Nat.add_right_comm, Nat.pow_add _ (m.log2 + 1)]
  exact ⟨Nat.mul_le_mul_right _ (Nat.log2_self_le hm.ne'),
    Nat.mul_lt_mul_of_pos_right Nat.lt_log2_self (Nat.two_pow_pos k)⟩

theorem log2_div {m n : Nat} (hn : 0 < n) (h : n.log2 < m.log2) :
    m.log2 ≤ (m / n).log2 + n.log2 + 1 ∧ (m / n).log2 + n.log2 ≤ m.log2 := by
  have hm : 0 < m := by
    rcases Nat.eq_zero_or_pos m with rfl | hm
    · simp at h
    · exact hm
  have hquot : 2 ^ (m.log2 - n.log2 - 1) ≤ m / n := by
    rw [Nat.le_div_iff_mul_le hn]
    calc 2 ^ (m.log2 - n.log2 - 1) * n
        ≤ 2 ^ (m.log2 - n.log2 - 1) * 2 ^ (n.log2 + 1) :=
          Nat.mul_le_mul_left _ Nat.lt_log2_self.le
      _ = 2 ^ m.log2 := by rw [← Nat.pow_add]; congr 1; omega
      _ ≤ m := Nat.log2_self_le hm.ne'
  have hpos : 0 < m / n := Nat.lt_of_lt_of_le (Nat.two_pow_pos _) hquot
  have hlow := (Nat.le_log2 hpos.ne').mpr hquot
  refine ⟨by omega, ?_⟩
  have hmul := (log2_mul hpos hn).1
  have hmono : (m / n * n).log2 ≤ m.log2 :=
    (Nat.le_log2 hm.ne').mpr ((Nat.log2_self_le (Nat.mul_pos hpos hn).ne').trans
      (Nat.div_mul_le_self m n))
  omega

/-! ### Products and quotients -/

section Operations

variable {x y : Float}

theorem filled_mul {m n : Nat} {e f : Int} (hm : 0 < m) (hn : 0 < n) (h : IsCanonical m e)
    (h' : IsCanonical n f) : Filled (m * n) (e + f) := by
  rcases h.normal with hbig | he
  · exact .inl (hbig.trans (Nat.le_mul_of_pos_right m hn))
  · rcases h'.normal with hbig | hf
    · exact .inl (hbig.trans (Nat.le_mul_of_pos_left n hm))
    · exact .inr (by omega)

theorem between_mul (hx : Between lo hi (value x)) (hy : Between lo' hi' (value y))
    (hmin : -1022 ≤ lo + lo') (hmax : hi + hi' + 1 ≤ 1022) :
    Between (lo + lo') (hi + hi' + 2) (value (x * y)) := by
  rw [value_mul]
  generalize hu : value x = u at hx
  generalize hv : value y = v at hy
  obtain @⟨s, m, e, hm, hx, hx'⟩ := hx
  obtain @⟨t, n, f, hn, hy, hy'⟩ := hy
  have hlog := log2_mul hm hn
  have hfilled := filled_mul hm hn (isCanonical_of_value hu) (isCanonical_of_value hv)
  exact (between_settle_round hfilled (by omega) (by omega)).mono (by omega) (by omega)

theorem below_mul (hx : Below hi (value x)) (hy : Below hi' (value y))
    (hmin : -1022 ≤ hi + hi' + 1) (hmax : hi + hi' + 1 ≤ 1022) :
    Below (hi + hi' + 2) (value (x * y)) := by
  rw [value_mul]
  generalize hu : value x = u at hx
  generalize hv : value y = v at hy
  cases hx with
  | zero s => cases hy <;> exact (settle_zero _).symm ▸ .zero _
  | finite hx =>
    rename_i s m e hm
    cases hy with
    | zero t => exact (settle_zero _).symm ▸ .zero _
    | finite hy =>
      rename_i t n f hn
      have hlog := log2_mul hm hn
      have hfilled := filled_mul hm hn (isCanonical_of_value hu) (isCanonical_of_value hv)
      exact (below_settle_round hfilled (by omega) hmin hmax).mono (by omega)

/-- The quotient that is rounded has enough digits, and lies in the binade of the quotient of the
binades or in the one below. -/
theorem divCore_spec {m n q : Nat} {e f t : Int} {a : Accuracy} (hm : 0 < m) (hn : 0 < n)
    (h : divCore .binary64 m e n f = (q, t, a)) :
    Filled q t ∧ q.log2 + t ≤ max (m.log2 + e - (n.log2 + f)) (-1074) ∧
      (-1021 ≤ m.log2 + e - (n.log2 + f) → m.log2 + e - (n.log2 + f) - 1 ≤ q.log2 + t) := by
  have hbits : Format.binary64.mantissaBits = 53 := rfl
  have hmin : Format.binary64.minExponent = -1074 := rfl
  simp only [divCore, totalExponent, Format.targetExponent, hbits, hmin, Prod.mk.injEq] at h
  obtain ⟨rfl, ht, -⟩ := h
  rw [ht]
  generalize hsh : (e - f - t).toNat = k
  have hk : (k : Int) = e - f - t := by omega
  have hlog := log2_shiftLeft hm k
  by_cases hbig : n.log2 < (m <<< k).log2
  · have hdiv := log2_div hn hbig
    rw [hlog] at hdiv hbig
    have hfilled : ¬ t ≤ -1074 → 52 ≤ (m <<< k / n).log2 := by omega
    refine ⟨?_, by omega, by omega⟩
    by_cases hle : t ≤ -1074
    · exact .inr hle
    · refine .inl ((Nat.le_log2 ?_).mp (hfilled hle))
      intro hzero
      rw [hzero] at hfilled
      simp at hfilled
      omega
  · have hsmall : m <<< k / n < 2 ^ 1 := by
      rw [Nat.div_lt_iff_lt_mul hn]
      calc m <<< k < 2 ^ ((m <<< k).log2 + 1) := Nat.lt_log2_self
        _ ≤ 2 ^ (n.log2 + 1) := Nat.pow_le_pow_right (by decide) (by omega)
        _ = 2 ^ 1 * 2 ^ n.log2 := by rw [Nat.pow_succ, Nat.mul_comm, Nat.pow_one]
        _ ≤ 2 ^ 1 * n := Nat.mul_le_mul_left _ (Nat.log2_self_le hn.ne')
    have hlogq : (m <<< k / n).log2 = 0 := by
      rcases Nat.eq_zero_or_pos (m <<< k / n) with hzero | hpos
      · rw [hzero, Nat.log2_zero]
      · have := (Nat.log2_lt hpos.ne').mpr hsmall
        omega
    rw [hlog] at hbig
    rw [hlogq]
    exact ⟨.inr (by omega), by omega, by omega⟩

theorem between_div (hx : Between lo hi (value x)) (hy : Between lo' hi' (value y))
    (hmin : -1022 ≤ lo - hi' - 1) (hmax : hi - lo' ≤ 1022) :
    Between (lo - hi' - 1) (hi - lo' + 1) (value (x / y)) := by
  rw [value_div]
  generalize value x = u at hx
  generalize value y = v at hy
  obtain @⟨s, m, e, hm, hx, hx'⟩ := hx
  obtain @⟨t, n, f, hn, hy, hy'⟩ := hy
  obtain ⟨hfilled, hle, hge⟩ := divCore_spec hm hn rfl (e := e) (f := f)
  exact (between_settle_round hfilled (by omega) (by omega)).mono (by omega) (by omega)

theorem below_div (hx : Below hi (value x)) (hy : Between lo' hi' (value y))
    (hmin : -1022 ≤ hi - lo') (hmax : hi - lo' ≤ 1022) :
    Below (hi - lo' + 1) (value (x / y)) := by
  rw [value_div]
  generalize value x = u at hx
  generalize value y = v at hy
  obtain @⟨t, n, f, hn, hy, -⟩ := hy
  cases hx with
  | zero s => exact (settle_zero _).symm ▸ .zero _
  | finite hx =>
    rename_i s m e hm
    obtain ⟨hfilled, hle, -⟩ := divCore_spec hm hn rfl (e := e) (f := f)
    exact below_settle_round hfilled (by omega) hmin hmax

end Operations

/-! ### Signs of products and quotients -/

/-- Not a number, a zero, or of the given sign. -/
inductive Toward (s : Sign) : UnpackedFloat → Prop where
  | notANumber : Toward s .notANumber
  | zero (t : Sign) : Toward s (.zero t)
  | infinity : Toward s (.infinity s)
  | finite (m : Nat) (e : Int) (hm : 0 < m) : Toward s (.finite s m e hm)

theorem toward_of_signOf {s : Sign} (h : signOf u = some s) : Toward s u := by
  cases u <;> cases h <;> constructor

theorem toward_abs : Toward .positive u.abs := by
  cases u <;> constructor

theorem toward_settle {s : Sign} (h : Toward s u) : Toward s (settle u) := by
  cases h with
  | notANumber => exact .notANumber
  | zero t => exact (settle_zero t).symm ▸ .zero t
  | infinity => exact (settle_infinity s).symm ▸ .infinity
  | finite m e hm => exact toward_of_signOf (signOf_settle _)

section Signs

variable {x y : Float} {s t : Sign}

theorem toward_mul (hx : Toward s (value x)) (hy : signOf (value y) = some t) :
    Toward (s * t) (value (x * y)) := by
  rw [value_mul]
  refine toward_settle ?_
  generalize value x = u at hx
  generalize value y = v at hy
  cases hx <;> cases v <;> cases hy <;>
    first | exact toward_of_signOf (signOf_roundWithAccuracy ..) | constructor

theorem toward_div (hx : Toward s (value x)) (hy : signOf (value y) = some t) :
    Toward (s / t) (value (x / y)) := by
  rw [value_div]
  refine toward_settle ?_
  generalize value x = u at hx
  generalize value y = v at hy
  cases hx <;> cases v <;> cases hy <;>
    first | exact toward_of_signOf (signOf_roundWithAccuracy ..) | constructor

/-- Numbers with a sign, of which one is finite and not zero, have a product with a sign. -/
theorem signOf_mul (hx : signOf (value x) = some s) (hy : signOf (value y) = some t)
    (h : Between lo hi (value x) ∨ Between lo hi (value y)) :
    signOf (value (x * y)) = some (s * t) := by
  rw [value_mul, signOf_settle]
  generalize value x = u at hx h
  generalize value y = v at hy h
  obtain h | h := h <;> cases h
  · cases v <;> cases hx <;> cases hy <;>
      first | exact signOf_roundWithAccuracy .. | rfl
  · cases u <;> cases hx <;> cases hy <;>
      first | exact signOf_roundWithAccuracy .. | rfl

/-- A number with a sign, divided by a finite one that is not zero, has a sign. -/
theorem signOf_div (hx : signOf (value x) = some s) (hy : signOf (value y) = some t)
    (h : Between lo hi (value y)) : signOf (value (x / y)) = some (s / t) := by
  rw [value_div, signOf_settle]
  generalize value x = u at hx
  generalize value y = v at hy h
  cases h
  cases u <;> cases hx <;> cases hy <;> first | exact signOf_roundWithAccuracy .. | rfl

end Signs

/-! ### Numbers that are not finite -/

section NotFinite

variable {x y : Float}

theorem not_isFinite_mul (h : (value x).isFinite = false) : (value (x * y)).isFinite = false := by
  rw [value_mul]
  generalize value x = u at h
  cases u <;> cases h <;> cases value y <;>
    simp only [mul, settle_infinity, UnpackedFloat.isFinite] <;> rfl

theorem not_isFinite_div_zero {s : Sign} (h : value y = .zero s) :
    (value (x / y)).isFinite = false := by
  rw [value_div, h]
  cases value x <;> simp only [div, settle_infinity, UnpackedFloat.isFinite] <;> rfl

end NotFinite

/-! ### Bits -/

/-- The absolute value of a double. -/
def magnitude (narrowBelow : Bool) : UnpackedFloat → Magnitude
  | .notANumber => .nan
  | .infinity _ => .infinite
  | .zero _ => .finite ⟨0, -1074, narrowBelow⟩
  | .finite _ m e _ => .finite ⟨m, e, narrowBelow⟩

theorem toNat_exponent (bits : UInt64) :
    (bits >>> 52 &&& 0x7FF).toNat = (exponentField bits.toBitVec).toNat := by
  have hright : (exponentField bits.toBitVec).toNat =
      (bits.toNat >>> 52) % 2 ^ 11 := rfl
  rw [hright, ← Nat.and_two_pow_sub_one_eq_mod, UInt64.toNat_and, UInt64.toNat_shiftRight]
  rfl

theorem toNat_fraction (bits : UInt64) :
    (bits &&& 0xFFFFFFFFFFFFF).toNat =
      (fractionField bits.toBitVec).toNat := by
  have hright : (fractionField bits.toBitVec).toNat =
      (bits.toNat >>> 0) % 2 ^ 52 := rfl
  rw [hright, ← Nat.and_two_pow_sub_one_eq_mod, UInt64.toNat_and]
  rfl

theorem exists_magnitude (x : Float) :
    ∃ narrowBelow, Magnitude.ofBits x.toBits = magnitude narrowBelow (value x) := by
  rw [value_eq_assemble]
  simp only [Magnitude.ofBits, toNat_exponent, toNat_fraction]
  generalize exponentField x.toBits.toBitVec = exponent
  generalize fractionField x.toBits.toBitVec = fraction
  have hmax : exponent.toNat = 0x7FF ↔ exponent = -1#11 :=
    BitVec.toNat_inj (x := exponent) (y := -1#11)
  have hmin : exponent.toNat = 0 ↔ exponent = 0#11 :=
    BitVec.toNat_inj (x := exponent) (y := 0#11)
  have hzero : fraction.toNat = 0 ↔ fraction = 0#52 :=
    BitVec.toNat_inj (x := fraction) (y := 0#52)
  simp only [hmax, hmin, assemble]
  split
  · simp only [hzero]
    split <;> exact ⟨false, rfl⟩
  · split
    · by_cases hnone : fraction = 0#52
      · rw [dif_pos hnone, hzero.mpr hnone]
        exact ⟨false, rfl⟩
      · rw [dif_neg hnone]
        exact ⟨false, rfl⟩
    · exact ⟨_, rfl⟩

theorem sign_of_signOf_assemble {s t : Sign} {exponent : BitVec 11} {fraction : BitVec 52}
    (h : signOf (assemble s exponent fraction) = some t) : s = t := by
  by_cases hnan : exponent = -1#11 → fraction = 0#52
  · exact Option.some.inj ((signOf_assemble hnan).symm.trans h)
  · obtain ⟨hmax, hzero⟩ := Classical.not_imp.mp hnan
    rw [assemble, if_pos hmax, if_neg hzero] at h
    cases h

theorem isNegative_eq {x : Float} {s : Sign} (h : signOf (value x) = some s) :
    isNegative x.toBits = (s == .negative) := by
  rw [value_eq_assemble] at h
  obtain rfl := sign_of_signOf_assemble h
  have hfield : x.toBits >>> 63 = ⟨(@unpackSign .binary64 x.toBits.toBitVec).setWidth 64⟩ := by
    refine UInt64.toNat_inj.mp ?_
    have hleft : (x.toBits >>> 63).toNat = x.toBits.toNat >>> 63 := UInt64.toNat_shiftRight ..
    have hright : (@unpackSign .binary64 x.toBits.toBitVec).toNat =
        (x.toBits.toNat >>> 63) % 2 := rfl
    have hlt := x.toBits.toNat_lt
    show _ = ((@unpackSign .binary64 x.toBits.toBitVec).setWidth 64).toNat
    rw [hleft, BitVec.toNat_setWidth, hright, Nat.shiftRight_eq_div_pow]
    omega
  rw [isNegative, hfield, signField]
  generalize @unpackSign .binary64 x.toBits.toBitVec = bit
  revert bit
  decide

section Comparison

variable {x : Float}

/-! ### Comparison with zero -/

theorem lt_iff {x y : Float} : x < y ↔ (value x).lt (value y) = true := by
  show decide ((value x).lt (value y) = true) = true ↔ _
  rw [decide_eq_true_iff]

theorem le_iff {x y : Float} : x ≤ y ↔ (value x).le (value y) = true := by
  show decide ((value x).le (value y) = true) = true ↔ _
  rw [decide_eq_true_iff]

theorem value_zero : value 0 = .zero .positive := rfl

theorem signOf_of_pos (h : 0 < x) : signOf (value x) = some .positive := by
  rw [lt_iff, value_zero] at h
  cases hu : value x with
  | finite s m e hm => cases s <;> rw [hu] at h <;> first | rfl | cases h
  | infinity s => cases s <;> rw [hu] at h <;> first | rfl | cases h
  | zero s => rw [hu] at h; cases h
  | notANumber => rw [hu] at h; cases h

theorem signOf_of_neg (h : x < 0) : signOf (value x) = some .negative := by
  rw [lt_iff, value_zero] at h
  cases hu : value x with
  | finite s m e hm => cases s <;> rw [hu] at h <;> first | rfl | cases h
  | infinity s => cases s <;> rw [hu] at h <;> first | rfl | cases h
  | zero s => rw [hu] at h; cases h
  | notANumber => rw [hu] at h; cases h

theorem toward_of_nonneg (h : 0 ≤ x) : Toward .positive (value x) := by
  rw [le_iff, value_zero] at h
  cases hu : value x with
  | finite s m e hm => cases s <;> rw [hu] at h <;> first | exact .finite .. | cases h
  | infinity s => cases s <;> rw [hu] at h <;> first | exact .infinity | cases h
  | zero s => exact .zero s
  | notANumber => exact .notANumber

/-- A finite number that is positive is not zero. -/
theorem exists_between_of_pos (hx : x.isFinite = true) (h : 0 < x) :
    ∃ lo hi, Between lo hi (value x) := by
  have hx : (value x).isFinite = true := hx
  rw [lt_iff, value_zero] at h
  cases hu : value x with
  | finite s m e hm => exact ⟨_, _, .finite (Int.le_refl _) (Int.le_refl _)⟩
  | zero s => rw [hu] at h; cases h
  | infinity s => rw [hu] at hx; cases hx
  | notANumber => rw [hu] at hx; cases hx

/-- A finite number that is neither positive nor negative is a zero. -/
theorem exists_value_eq_zero (hx : x.isFinite = true) (hpos : ¬ 0 < x) (hneg : ¬ x < 0) :
    ∃ s, value x = .zero s := by
  have hx : (value x).isFinite = true := hx
  rw [lt_iff, value_zero] at hpos hneg
  cases hu : value x with
  | finite s m e hm =>
    rw [hu] at hpos hneg
    cases s with
    | positive => exact absurd rfl hpos
    | negative => exact absurd rfl hneg
  | zero s => exact ⟨s, rfl⟩
  | infinity s => rw [hu] at hx; cases hx
  | notANumber => rw [hu] at hx; cases hx

/-! ### Exact values -/

/-- The exact value of a finite double, and zero for any other. -/
def exact (x : Float) : ℚ :=
  match value x with
  | .finite s m e _ => s.apply m * 2 ^ e
  | _ => 0

theorem exact_pos_iff (hx : x.isFinite = true) : 0 < exact x ↔ 0 < x := by
  have hx : (value x).isFinite = true := hx
  rw [lt_iff, value_zero, exact]
  cases hu : value x with
  | finite s m e hm =>
    have hpow : (0 : ℚ) < 2 ^ e := by positivity
    have hm' : (0 : ℚ) < m := by exact_mod_cast hm
    cases s with
    | positive =>
      refine iff_of_true ?_ rfl
      show (0 : ℚ) < ((m : Int) : ℚ) * 2 ^ e
      rw [Int.cast_natCast]
      positivity
    | negative =>
      refine iff_of_false ?_ nofun
      show ¬ (0 : ℚ) < ((-(m : Int) : Int) : ℚ) * 2 ^ e
      rw [Int.cast_neg, Int.cast_natCast, not_lt]
      nlinarith
  | zero s => simp [UnpackedFloat.lt, UnpackedFloat.compare]
  | infinity s => rw [hu] at hx; cases hx
  | notANumber => rw [hu] at hx; cases hx

theorem abs_exact {s : Sign} {m : Nat} {e : Int} {hm : 0 < m} (h : value x = .finite s m e hm) :
    |exact x| = m * 2 ^ e := by
  have hpow : (0 : ℚ) < 2 ^ e := by positivity
  rw [exact, h, abs_mul, abs_of_pos hpow]
  cases s <;> simp [Sign.apply]

/-- An absolute value of at most a power of two is below its binade. -/
theorem below_of_abs_exact_le (hx : x.isFinite = true) (h : |exact x| ≤ 2 ^ hi) :
    Below hi (value x) := by
  have hx : (value x).isFinite = true := hx
  cases hu : value x with
  | finite s m e hm =>
    refine .finite ?_
    rw [abs_exact hu] at h
    have hlog : (2 : ℚ) ^ m.log2 ≤ m := by exact_mod_cast Nat.log2_self_le hm.ne'
    have hpow : (0 : ℚ) < 2 ^ e := by positivity
    have hle : (2 : ℚ) ^ ((m.log2 : Int) + e) ≤ 2 ^ hi := by
      rw [zpow_add₀ (by norm_num), zpow_natCast]
      exact (mul_le_mul_of_nonneg_right hlog hpow.le).trans h
    exact (zpow_le_zpow_iff_right₀ (by norm_num)).mp hle
  | zero s => exact .zero s
  | infinity s => rw [hu] at hx; cases hx
  | notANumber => rw [hu] at hx; cases hx

theorem between_of_abs_exact (hx : x.isFinite = true) (hmin : 2 ^ lo ≤ |exact x|)
    (hmax : |exact x| ≤ 2 ^ hi) : Between lo hi (value x) := by
  have hbelow := below_of_abs_exact_le hx hmax
  cases hu : value x with
  | finite s m e hm =>
    rw [hu] at hbelow
    obtain hle | hle := hbelow
    refine .finite ?_ hle
    rw [abs_exact hu] at hmin
    have hlog : (m : ℚ) < 2 ^ (m.log2 + 1) := by exact_mod_cast Nat.lt_log2_self
    have hpow : (0 : ℚ) < 2 ^ e := by positivity
    have hlt : (2 : ℚ) ^ lo < 2 ^ ((m.log2 : Int) + 1 + e) := by
      rw [zpow_add₀ (by norm_num), ← Nat.cast_succ, zpow_natCast]
      exact hmin.trans_lt (mul_lt_mul_of_pos_right hlog hpow)
    have := (zpow_lt_zpow_iff_right₀ (by norm_num)).mp hlt
    omega
  | zero s =>
    rw [exact, hu, abs_zero] at hmin
    exact absurd hmin (not_le.mpr (by positivity))
  | infinity s => rw [hu] at hbelow; cases hbelow
  | notANumber => rw [hu] at hbelow; cases hbelow

end Comparison

end WebFonts.Double
