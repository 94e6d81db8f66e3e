import WebFonts.Proofs.DecodedMetrics
import WebFonts.Rule.FontFace

/-!
# Overrides as percentages

The overrides of a local font are ratios of the measures of a web font to its em, resized. The em is
the divisor of three of them, and nothing but its own sign keeps them from being infinite or
negative: the units per em are tested only where the width is related to them.

* `Double`-level facts about signs and binades give the text of each ratio (`percent_eq`,
  `isPercentage_iff_of_toward`, `percentText_of_toward`).
* Where the units per em are positive, no ratio is negative (`toward_of_mem_ratios`), and moderate
  measures keep all of them finite (`isFinite_of_moderate`). Where they are not, the font is not
  resized, and the divisor is the units per em (`percent_of_not_pos`).
* `Overrides.isPercentage_of_positive_em` puts this together for metrics decoded from JSON, and
  `Overrides.no_percentage_of_zero_em` is the case of zero units per em.
-/

namespace WebFonts

/-! ### Percentages -/

open Decimal (Magnitude isNegative atMostPlaces plain digitsOf padded dropTrailingZeros)
open Double
open Rule (quote)
open Float.Model (UnpackedFloat)
open Float.Model.UnpackedFloat (Sign)

/-- A decimal number without a sign, as it is written: digits, and perhaps a point and more
digits. -/
def IsDecimal (text : List Char) : Prop :=
  ∃ whole fraction : List Char, whole ≠ [] ∧ (∀ c ∈ whole ++ fraction, c.isDigit = true) ∧
    text = whole ++ if fraction = [] then [] else '.' :: fraction

/-- A decimal number without a sign, followed by a percent sign. -/
def IsPercentage (text : String) : Prop :=
  ∃ number, IsDecimal number ∧ text.toList = number ++ ['%']

theorem isDigit_of_mem_digitsOf {c : Char} {n : Nat} (h : c ∈ digitsOf n) : c.isDigit = true :=
  Nat.isDigit_of_mem_toDigits (by decide) (by decide) h

theorem digitsOf_ne_nil (n : Nat) : digitsOf n ≠ [] :=
  List.ne_nil_of_length_pos Nat.length_toDigits_pos

/-- A decimal with four places is written without a sign. -/
theorem isDecimal_plain (units : Nat) : IsDecimal (plain units (-4)).toList := by
  have hdigit : ∀ c ∈ dropTrailingZeros (padded 4 (units % Nat.pow 10 4)), c.isDigit = true := by
    intro c hc
    have hc := (List.dropWhile_suffix _).subset (List.mem_reverse.mp hc)
    rcases List.mem_append.mp (List.mem_reverse.mp hc) with hzero | hdigit
    · obtain ⟨-, rfl⟩ := List.mem_replicate.mp hzero
      rfl
    · exact isDigit_of_mem_digitsOf hdigit
  refine ⟨digitsOf (units / Nat.pow 10 4), dropTrailingZeros (padded 4 (units % Nat.pow 10 4)),
    digitsOf_ne_nil _, fun c hc => ?_, ?_⟩
  · exact (List.mem_append.mp hc).elim isDigit_of_mem_digitsOf (hdigit c)
  · rw [plain, if_neg (by decide), String.toList_ofList]
    cases hfraction : dropTrailingZeros (padded 4 (units % Nat.pow 10 4)) <;> simp_all

/-- A percentage begins with a digit. -/
theorem exists_head_of_isPercentage {text : String} (h : IsPercentage text) :
    ∃ c, text.toList.head? = some c ∧ c.isDigit = true := by
  obtain ⟨_, ⟨whole, fraction, hwhole, hdigit, rfl⟩, htext⟩ := h
  obtain ⟨c, rest, rfl⟩ := List.exists_cons_of_ne_nil hwhole
  exact ⟨c, by rw [htext]; rfl, hdigit c (by simp)⟩

theorem not_isPercentage {text : String} {c : Char} (h : text.toList.head? = some c)
    (hc : c.isDigit = false) : ¬ IsPercentage text := by
  intro hpercentage
  obtain ⟨d, hd, hdigit⟩ := exists_head_of_isPercentage hpercentage
  cases h.symm.trans hd
  exact absurd hdigit (by simp [hc])

/-- The minus of a negative number. -/
def minus : Sign → String
  | .negative => "-"
  | .positive => ""

/-- A value as it is written with four places and a percent sign. -/
def percentText : UnpackedFloat → String
  | .notANumber => "NaN%"
  | .infinity s => minus s ++ "inf" ++ "%"
  | .zero _ => "0%"
  | .finite s m e _ =>
    let units := Decimal.Binary.roundTo 4 ⟨m, e, false⟩
    (if units = 0 then "" else minus s) ++ plain units (-4) ++ "%"

theorem percent_eq (ratio : Float) : percent ratio = percentText (value (ratio * 100)) := by
  obtain ⟨narrowBelow, hmagnitude⟩ := exists_magnitude (ratio * 100)
  have hminus {s : Sign} (h : signOf (value (ratio * 100)) = some s) :
      (if isNegative (ratio * 100).toBits then "-" else "") = minus s := by
    rw [isNegative_eq h]
    cases s <;> rfl
  rw [percent, atMostPlaces, hmagnitude]
  cases hu : value (ratio * 100) with
  | finite s m e hm =>
    rw [hu] at hminus
    rw [hminus rfl]
    rfl
  | zero s =>
    have hunits : Decimal.Binary.roundTo 4 ⟨0, -1074, narrowBelow⟩ = 0 := by
      cases narrowBelow <;> decide +kernel
    simp only [magnitude, hunits]
    rfl
  | infinity s =>
    rw [hu] at hminus
    rw [hminus rfl]
    rfl
  | notANumber => rfl

/-- Only a finite value is written as a percentage. -/
theorem isFinite_of_isPercentage {u : UnpackedFloat} (h : IsPercentage (percentText u)) :
    u.isFinite = true := by
  cases u with
  | finite s m e hm => rfl
  | zero s => rfl
  | infinity s =>
    cases s with
    | positive => exact absurd h (not_isPercentage (c := 'i') rfl rfl)
    | negative => exact absurd h (not_isPercentage (c := '-') rfl rfl)
  | notANumber => exact absurd h (not_isPercentage (c := 'N') rfl rfl)

theorem isPercentage_plain (units : Nat) : IsPercentage (plain units (-4) ++ "%") :=
  ⟨_, isDecimal_plain units, String.toList_append⟩

/-- A value that is not negative is written as a percentage exactly if it is finite. -/
theorem isPercentage_iff_of_toward {u : UnpackedFloat} (h : Toward .positive u) :
    IsPercentage (percentText u) ↔ u.isFinite = true := by
  refine ⟨isFinite_of_isPercentage, fun hfinite => ?_⟩
  cases h with
  | notANumber => cases hfinite
  | infinity => cases hfinite
  | zero s => exact isPercentage_plain 0
  | finite m e hm =>
    have hsign (units : Nat) : (if units = 0 then "" else minus .positive) = "" := by
      split <;> rfl
    rw [percentText, hsign, String.empty_append]
    exact isPercentage_plain _

/-- A value that is not positive is written as a percentage only if it is rounded to zero. -/
theorem percentText_of_toward {u : UnpackedFloat} (h : Toward .negative u)
    (hpercentage : IsPercentage (percentText u)) : percentText u = "0%" := by
  have hfinite := isFinite_of_isPercentage hpercentage
  cases h with
  | notANumber => cases hfinite
  | infinity => cases hfinite
  | zero s => rfl
  | finite m e hm =>
    rw [percentText] at hpercentage ⊢
    by_cases hunits : Decimal.Binary.roundTo 4 ⟨m, e, false⟩ = 0
    · simp only [hunits]
      rfl
    · refine absurd hpercentage (not_isPercentage (c := '-') ?_ rfl)
      simp only [if_neg hunits, String.toList_append]
      rfl

/-! ### Exact overrides -/

namespace Metrics

/-- The average width in ems, in exact arithmetic. -/
def exactRatio (metrics : Metrics) : Option ℚ :=
  match metrics.averageWidth with
  | some width =>
    if 0 < exact width ∧ 0 < exact metrics.unitsPerEm then
      some (exact width / exact metrics.unitsPerEm)
    else none
  | none => none

theorem exactRatio_pos {metrics : Metrics} {ratio : ℚ} (h : metrics.exactRatio = some ratio) :
    0 < ratio := by
  unfold exactRatio at h
  split at h
  · split at h <;> cases h
    rename_i hpos
    exact div_pos hpos.1 hpos.2
  · cases h

/-- The em and the width are between `2 ^ -200` and `2 ^ 200`, and no other measure is above
that. -/
structure Moderate (metrics : Metrics) : Prop where
  unitsPerEm : (2 : ℚ) ^ (-200 : ℤ) ≤ |exact metrics.unitsPerEm| ∧
    |exact metrics.unitsPerEm| ≤ (2 : ℚ) ^ (200 : ℤ)
  ascent : |exact metrics.ascent| ≤ (2 : ℚ) ^ (200 : ℤ)
  descent : |exact metrics.descent| ≤ (2 : ℚ) ^ (200 : ℤ)
  lineGap : |exact metrics.lineGap| ≤ (2 : ℚ) ^ (200 : ℤ)
  averageWidth : ∀ width ∈ metrics.averageWidth,
    (2 : ℚ) ^ (-200 : ℤ) ≤ |exact width| ∧ |exact width| ≤ (2 : ℚ) ^ (200 : ℤ)

end Metrics

namespace Overrides

variable {web installed : Metrics}

/-- What the vertical measures are divided by, in exact arithmetic. -/
def exactEm (web installed : Metrics) : ℚ :=
  exact web.unitsPerEm *
    match web.exactRatio, installed.exactRatio with
    | some wanted, some given => wanted / given
    | _, _ => 1

/-- The divisor is positive exactly if the units per em are. -/
theorem exactEm_pos_iff (h : web.unitsPerEm.isFinite = true) :
    0 < exactEm web installed ↔ 0 < web.unitsPerEm := by
  have hfactor : 0 < match web.exactRatio, installed.exactRatio with
      | some wanted, some given => wanted / given
      | _, _ => 1 := by
    split
    · rename_i hwanted hgiven
      exact div_pos (Metrics.exactRatio_pos hwanted) (Metrics.exactRatio_pos hgiven)
    · exact one_pos
  rw [← exact_pos_iff h, exactEm, mul_pos_iff_of_pos_right hfactor]

/-! ### Signs of the overrides -/

/-- The local fonts have a positive letter width between a quarter em and one em. -/
theorem widthRatio_of_mem {name : String} {own : Metrics} (h : (name, own) ∈ localMetrics) :
    ∃ given, own.widthRatio = some given ∧ signOf (value given) = some .positive ∧
      Between (-2) (-1) (value given) := by
  simp only [localMetrics, List.mem_cons, Prod.mk.injEq, List.not_mem_nil, or_false] at h
  rcases h with ⟨-, rfl⟩ | ⟨-, rfl⟩ | ⟨-, rfl⟩ | ⟨-, rfl⟩ | ⟨-, rfl⟩ | ⟨-, rfl⟩ | ⟨-, rfl⟩ |
    ⟨-, rfl⟩
  all_goals exact ⟨_, rfl, rfl, by decide +kernel⟩

theorem exists_mem_of_localMetrics? {name : String} {own : Metrics}
    (h : localMetrics? name = some own) : ∃ key, (key, own) ∈ localMetrics := by
  obtain ⟨front, back, hlist, -⟩ := List.lookup_eq_some_iff.mp h
  exact ⟨_, hlist ▸ List.mem_append_right front List.mem_cons_self⟩

theorem signOf_widthRatio {ratio : Float} (hfinite : web.AllFinite)
    (h : web.widthRatio = some ratio) : signOf (value ratio) = some .positive := by
  unfold Metrics.widthRatio at h
  split at h
  · split at h <;> cases h
    rename_i hpos
    obtain ⟨lo, hi, hbetween⟩ := exists_between_of_pos hfinite.unitsPerEm hpos.2
    exact signOf_div (signOf_of_pos hpos.1) (signOf_of_pos hpos.2) hbetween
  · cases h

theorem signOf_sizeFactor {name : String} {own : Metrics} (hfinite : web.AllFinite)
    (hown : (name, own) ∈ localMetrics) :
    signOf (value (sizeFactor web own)) = some .positive := by
  obtain ⟨given, hgiven, hsign, hbetween⟩ := widthRatio_of_mem hown
  unfold sizeFactor
  split
  · rename_i wanted _ hwanted hgiven'
    cases hgiven.symm.trans hgiven'
    exact signOf_div (signOf_widthRatio hfinite hwanted) hsign hbetween
  · rfl

/-- What the vertical measures are divided by. -/
def em (web installed : Metrics) : Float :=
  web.unitsPerEm * sizeFactor web installed

/-- The vertical measures that are divided. -/
def verticals (web : Metrics) : List Float :=
  [web.ascent, web.descent.abs, web.lineGap]

/-- All ratios that are written, that of the sizes first. -/
def ratios (overrides : Overrides) : List Float :=
  [overrides.sizeAdjust, overrides.ascent, overrides.descent, overrides.lineGap]

theorem ratios_fit (web installed : Metrics) :
    (fit web installed).ratios =
      sizeFactor web installed :: (verticals web).map (· / em web installed) :=
  rfl

theorem map_snd_descriptors (overrides : Overrides) :
    overrides.descriptors.map Prod.snd = overrides.ratios.map percent :=
  rfl

theorem toward_of_mem_verticals (hascent : 0 ≤ web.ascent) (hgap : 0 ≤ web.lineGap) {x : Float}
    (hx : x ∈ verticals web) : Toward .positive (value x) := by
  simp only [verticals, List.mem_cons, List.not_mem_nil, or_false] at hx
  rcases hx with rfl | rfl | rfl
  · exact toward_of_nonneg hascent
  · exact value_abs _ ▸ toward_abs
  · exact toward_of_nonneg hgap

/-- A vertical measure becomes a percentage of the sign of the divisor. -/
theorem toward_percentage {x : Float} {s : Sign} (hx : Toward .positive (value x)) {y : Float}
    (hy : signOf (value y) = some s) : Toward s (value (x / y * 100)) := by
  have htoward := toward_mul (t := .positive) (toward_div hx hy) (y := 100) rfl
  cases s <;> exact htoward

variable {name : String} {own : Metrics}

/-- Where the units per em are positive, no ratio is negative. -/
theorem toward_of_mem_ratios (hfinite : web.AllFinite) (hown : (name, own) ∈ localMetrics)
    (hascent : 0 ≤ web.ascent) (hgap : 0 ≤ web.lineGap) (h : 0 < web.unitsPerEm) {ratio : Float}
    (hratio : ratio ∈ (fit web own).ratios) : Toward .positive (value (ratio * 100)) := by
  have hsize := signOf_sizeFactor hfinite hown
  rw [ratios_fit, List.mem_cons, List.mem_map] at hratio
  obtain rfl | ⟨x, hx, rfl⟩ := hratio
  · exact toward_mul (t := .positive) (toward_of_signOf hsize) rfl
  · obtain ⟨lo, hi, hbetween⟩ := exists_between_of_pos hfinite.unitsPerEm h
    have hem : signOf (value (em web own)) = some .positive :=
      signOf_mul (signOf_of_pos h) hsize (.inl hbetween)
    exact toward_percentage (toward_of_mem_verticals hascent hgap hx) hem

/-! ### Units per em that are not positive -/

theorem sizeFactor_of_not_pos (h : ¬ 0 < web.unitsPerEm) : sizeFactor web own = 1 := by
  have hnone : web.widthRatio = none := by
    unfold Metrics.widthRatio
    split
    · exact if_neg fun hpos => h hpos.2
    · rfl
  rw [sizeFactor, hnone]

theorem exactEm_of_not_pos (hfinite : web.AllFinite) (h : ¬ 0 < web.unitsPerEm) :
    exactEm web own = exact web.unitsPerEm := by
  have hnone : web.exactRatio = none := by
    unfold Metrics.exactRatio
    split
    · exact if_neg fun hpos => h ((exact_pos_iff hfinite.unitsPerEm).mp hpos.2)
    · rfl
  rw [exactEm, hnone, mul_one]

/-- Then a vertical measure is a percentage only if the units are negative and it is written as
zero. -/
theorem percent_of_not_pos (hfinite : web.AllFinite) (hascent : 0 ≤ web.ascent)
    (hgap : 0 ≤ web.lineGap) (h : ¬ 0 < web.unitsPerEm) {x : Float} (hx : x ∈ verticals web)
    (hpercentage : IsPercentage (percent (x / em web own))) :
    web.unitsPerEm < 0 ∧ percent (x / em web own) = "0%" := by
  rw [percent_eq] at hpercentage ⊢
  have hone : Between 0 0 (value 1) := by decide +kernel
  rw [em, sizeFactor_of_not_pos h] at hpercentage ⊢
  by_cases hneg : web.unitsPerEm < 0
  · have hem : signOf (value (web.unitsPerEm * 1)) = some .negative :=
      signOf_mul (t := .positive) (signOf_of_neg hneg) rfl (.inr hone)
    have htoward := toward_percentage (toward_of_mem_verticals hascent hgap hx) hem
    exact ⟨hneg, percentText_of_toward htoward hpercentage⟩
  · obtain ⟨s, hzero⟩ := exists_value_eq_zero hfinite.unitsPerEm h hneg
    have hem : value (web.unitsPerEm * 1) = .zero s := by
      rw [value_mul, hzero]
      cases s <;> rfl
    have hinfinite := not_isFinite_mul (y := 100) (not_isFinite_div_zero (x := x) hem)
    have hfinite := isFinite_of_isPercentage hpercentage
    cases hinfinite.symm.trans hfinite

/-! ### Moderate measures -/

/-- The factor and the divisor of moderate measures are in the range of doubles. -/
theorem between_sizeFactor (hfinite : web.AllFinite) (hown : (name, own) ∈ localMetrics)
    (hmoderate : web.Moderate) : Between (-401) 404 (value (sizeFactor web own)) := by
  obtain ⟨given, hgiven, hsign, hbetween⟩ := widthRatio_of_mem hown
  unfold sizeFactor
  split
  · rename_i wanted _ hwanted hgiven'
    cases hgiven.symm.trans hgiven'
    unfold Metrics.widthRatio at hwanted
    split at hwanted
    · rename_i width hwidth
      split at hwanted <;> cases hwanted
      have hmoderate' := hmoderate.averageWidth width hwidth
      have hwidth := between_of_abs_exact (hfinite.averageWidth width hwidth) hmoderate'.1
        hmoderate'.2
      have hunits := between_of_abs_exact hfinite.unitsPerEm hmoderate.unitsPerEm.1
        hmoderate.unitsPerEm.2
      have hratio := between_div hwidth hunits (by decide) (by decide)
      exact (between_div hratio hbetween (by decide) (by decide)).mono (by decide) (by decide)
    · cases hwanted
  · have hone : Between 0 0 (value 1) := by decide +kernel
    exact hone.mono (by decide) (by decide)

theorem isFinite_of_moderate (hfinite : web.AllFinite) (hown : (name, own) ∈ localMetrics)
    (hmoderate : web.Moderate) {ratio : Float} (hratio : ratio ∈ (fit web own).ratios) :
    (ratio * 100).isFinite = true := by
  have hsize := between_sizeFactor hfinite hown hmoderate
  have hhundred : Between 6 6 (value 100) := by decide +kernel
  rw [ratios_fit, List.mem_cons, List.mem_map] at hratio
  obtain rfl | ⟨x, hx, rfl⟩ := hratio
  · exact isFinite_of_below (below_mul hsize.below hhundred.below (by decide) (by decide))
  · have hunits := between_of_abs_exact hfinite.unitsPerEm hmoderate.unitsPerEm.1
      hmoderate.unitsPerEm.2
    have hem : Between (-601) 606 (value (em web own)) :=
      between_mul hunits hsize (by decide) (by decide)
    have hbelow : Below 200 (value x) := by
      simp only [verticals, List.mem_cons, List.not_mem_nil, or_false] at hx
      rcases hx with rfl | rfl | rfl
      · exact below_of_abs_exact_le hfinite.ascent hmoderate.ascent
      · rw [value_abs]
        exact (below_of_abs_exact_le hfinite.descent hmoderate.descent).abs
      · exact below_of_abs_exact_le hfinite.lineGap hmoderate.lineGap
    have hquotient := below_div hbelow hem (by decide) (by decide)
    exact isFinite_of_below (below_mul hquotient hhundred.below (by decide) (by decide))

/-! ### Percentages of metrics that are decoded -/

/-- **Overrides are percentages where the units per em are positive.** For metrics decoded from JSON
whose ascent and line gap are not negative, and for each local font, the rule of the local font
states the overrides, and their exact divisor is positive exactly if the units per em are.

Then each override is written as a percentage exactly if its ratio, as a double, is finite after it
is multiplied by hundred, which is so for moderate measures. Otherwise the divisor is the units per
em themselves, and a vertical override is written as a percentage only if they are negative and the
override is rounded to zero. -/
theorem isPercentage_of_positive_em {text name : String} {web own : Metrics}
    (hdecode : Json.Decoder.ofText Metrics.decode text = .ok web) (hascent : 0 ≤ web.ascent)
    (hgap : 0 ≤ web.lineGap) (hown : localMetrics? name = some own) :
    (∀ family, fallbackRule family name (some web) =
        Rule.render ([("font-family", quote family), ("src", s!"local({quote name})")] ++
          (fit web own).descriptors)) ∧
      (0 < exactEm web own ↔ 0 < web.unitsPerEm) ∧
      (0 < web.unitsPerEm →
        (∀ ratio ∈ (fit web own).ratios,
          (IsPercentage (percent ratio) ↔ (ratio * 100).isFinite = true)) ∧
        (web.Moderate → ∀ descriptor ∈ (fit web own).descriptors, IsPercentage descriptor.2)) ∧
      (¬ 0 < web.unitsPerEm →
        exactEm web own = exact web.unitsPerEm ∧
        ∀ ratio ∈ [(fit web own).ascent, (fit web own).descent, (fit web own).lineGap],
          IsPercentage (percent ratio) → web.unitsPerEm < 0 ∧ percent ratio = "0%") := by
  have hfinite := Metrics.allFinite_of_ofText hdecode
  have hrule : ∀ family, fallbackRule family name (some web) =
      Rule.render ([("font-family", quote family), ("src", s!"local({quote name})")] ++
        (fit web own).descriptors) := fun family => by simp only [fallbackRule, hown]
  obtain ⟨key, hown⟩ := exists_mem_of_localMetrics? hown
  refine ⟨hrule, exactEm_pos_iff hfinite.unitsPerEm, fun hpos => ?_, fun hnot => ?_⟩
  · have hiff : ∀ ratio ∈ (fit web own).ratios,
        (IsPercentage (percent ratio) ↔ (ratio * 100).isFinite = true) := fun ratio hratio =>
      percent_eq ratio ▸ isPercentage_iff_of_toward
        (toward_of_mem_ratios hfinite hown hascent hgap hpos hratio)
    refine ⟨hiff, fun hmoderate descriptor hdescriptor => ?_⟩
    have hmem : descriptor.2 ∈ (fit web own).descriptors.map Prod.snd :=
      List.mem_map_of_mem hdescriptor
    rw [map_snd_descriptors] at hmem
    obtain ⟨ratio, hratio, htext⟩ := List.mem_map.mp hmem
    exact htext ▸ (hiff ratio hratio).mpr (isFinite_of_moderate hfinite hown hmoderate hratio)
  · refine ⟨exactEm_of_not_pos hfinite hnot, fun ratio hratio => ?_⟩
    have hratio : ratio ∈ (verticals web).map (· / em web own) := hratio
    obtain ⟨x, hx, rfl⟩ := List.mem_map.mp hratio
    exact percent_of_not_pos hfinite hascent hgap hnot hx

/-- Four percentages for a font with a thousand units per em. -/
theorem isPercentage_of_thousand_units :
    ∃ web own, Json.Decoder.ofText Metrics.decode "[1000, 900, -250, 0, 500]" = .ok web ∧
      0 ≤ web.ascent ∧ 0 ≤ web.lineGap ∧ localMetrics? "Arial" = some own ∧
      0 < web.unitsPerEm ∧ web.Moderate ∧ 0 < exactEm web own ∧
      ∀ descriptor ∈ (fit web own).descriptors, IsPercentage descriptor.2 := by
  have hdecode : Json.Decoder.ofText Metrics.decode "[1000, 900, -250, 0, 500]" =
      .ok ⟨1000, 900, -250, 0, some 500⟩ := by decide +kernel
  have hown : localMetrics? "Arial" = some ⟨2048, 1854, -434, 67, some 904⟩ := by decide +kernel
  have hmain := isPercentage_of_positive_em hdecode (by decide +kernel) (by decide +kernel) hown
  have hunits : |exact 1000| = (1000 * 2 ^ 43 : Nat) * 2 ^ (-43 : ℤ) := abs_exact rfl
  have hascent : |exact 900| = (900 * 2 ^ 43 : Nat) * 2 ^ (-43 : ℤ) := abs_exact rfl
  have hdescent : |exact (-250)| = (250 * 2 ^ 45 : Nat) * 2 ^ (-45 : ℤ) := abs_exact rfl
  have hwidth : |exact 500| = (500 * 2 ^ 44 : Nat) * 2 ^ (-44 : ℤ) := abs_exact rfl
  have hgap : exact 0 = 0 := rfl
  have hmoderate : Metrics.Moderate ⟨1000, 900, -250, 0, some 500⟩ := by
    refine ⟨?_, ?_, ?_, ?_, ?_⟩
    · rw [hunits]
      norm_num
    · rw [hascent]
      norm_num
    · rw [hdescent]
      norm_num
    · rw [hgap]
      norm_num
    · intro width hmem
      cases hmem
      rw [hwidth]
      norm_num
  exact ⟨_, _, hdecode, by decide +kernel, by decide +kernel, hown, by decide +kernel, hmoderate,
    hmain.2.1.mpr (by decide +kernel), (hmain.2.2.1 (by decide +kernel)).2 hmoderate⟩

/-- With zero units per em, the divisor is zero and the overrides are written as infinite or as no
number at all. -/
theorem no_percentage_of_zero_em :
    ∃ web own, Json.Decoder.ofText Metrics.decode "[0, 800, -200]" = .ok web ∧ 0 ≤ web.ascent ∧
      0 ≤ web.lineGap ∧ localMetrics? "Arial" = some own ∧ ¬ 0 < exactEm web own ∧
      (fit web own).descriptors = [("size-adjust", "100%"), ("ascent-override", "inf%"),
        ("descent-override", "inf%"), ("line-gap-override", "NaN%")] ∧
      ∀ text ∈ ["inf%", "NaN%"], ¬ IsPercentage text := by
  refine ⟨⟨0, 800, -200, 0, none⟩, ⟨2048, 1854, -434, 67, some 904⟩, by decide +kernel,
    by decide +kernel, by decide +kernel, by decide +kernel, ?_, by decide +kernel, ?_⟩
  · have hzero : exact 0 = 0 := rfl
    rw [exactEm, hzero, zero_mul]
    exact lt_irrefl 0
  · simp only [List.forall_mem_cons, List.not_mem_nil, false_implies, implies_true, and_true]
    exact ⟨not_isPercentage (c := 'i') rfl rfl, not_isPercentage (c := 'N') rfl rfl⟩

end Overrides

end WebFonts
