import WebFonts.Font.Codec
import WebFonts.Proofs.Doubles

/-!
# Numbers read from JSON

Every number that is decoded from JSON is finite: a number out of the range of doubles is refused,
and the steps in which the others are computed neither overflow nor divide by zero
(`Numeral.isFinite_of_toFloat?`). A property of records that holds at first and that every field
keeps holds of what is decoded (`Record.decode_preserves`); so all measures of decoded metrics are
finite (`Metrics.allFinite_of_decode`).
-/

namespace WebFonts

namespace Double

open Float.Model (Format UnpackedFloat totalExponent)
open Float.Model.UnpackedFloat

theorem isFinite_of_below {x : Float} {hi : Int} (h : Below hi (value x)) : x.isFinite = true :=
  h.isFinite

theorem isFinite_neg {x : Float} (h : x.isFinite = true) : (-x).isFinite = true := by
  have h : (value x).isFinite = true := h
  show (value (-x)).isFinite = true
  rw [value_neg]
  cases hu : value x <;> rw [hu] at h <;> first | rfl | cases h

theorem isFinite_of_signOf {x : Float} {s : Sign} (hsign : signOf (value x) = some s)
    (hinfinite : x.isInf = false) : x.isFinite = true := by
  have hinfinite : (value x).isInf = false := hinfinite
  show (value x).isFinite = true
  cases hu : value x with
  | infinity => rw [hu] at hinfinite; cases hinfinite
  | notANumber => rw [hu] at hsign; cases hsign
  | _ => rfl

/-- A natural number of 64 bits is finite as a double. -/
theorem below_toFloat (n : UInt64) : Below 64 (value n.toFloat) := by
  have hvalue : value n.toFloat =
      settle (UnpackedFloat.normalize .binary64 n.toNat 0 .positive) := rfl
  have hlt : n.toNat < 2 ^ 64 := n.toNat_lt
  rw [hvalue, UnpackedFloat.normalize]
  generalize n.toNat = k at hlt
  rcases Nat.eq_zero_or_pos k with rfl | hk
  · exact .zero _
  · have hlog : k.log2 < 64 := (Nat.log2_lt hk.ne').mpr hlt
    rw [Int.compare_eq_gt.mpr (by omega)]
    simp only [UnpackedFloat.round, decreaseExponent, Int.toNat_natCast]
    have htarget : Format.binary64.targetExponent (totalExponent k 0) = (k.log2 : Int) - 52 := by
      have hbits : Format.binary64.mantissaBits = 53 := rfl
      have hmin : Format.binary64.minExponent = -1074 := rfl
      rw [Format.targetExponent, totalExponent, hbits, hmin]
      omega
    rw [htarget]
    generalize hshift : (0 - ((k.log2 : Int) - 52)).toNat = d
    have hlog' := log2_shiftLeft hk d
    have hfilled : Filled (k <<< d) (0 - (d : Int)) :=
      .inl ((Nat.le_log2 (Nat.shiftLeft_pos_iff.mpr hk).ne').mp (by omega))
    have hle : (k <<< d).log2 + (0 - (d : Int)) ≤ 63 := by omega
    exact below_settle_round hfilled hle (by decide) (by decide)

end Double

namespace Json

open Double
open Float.Model.UnpackedFloat

namespace Numeral

/-- A power of ten that is below the greatest binade. -/
theorem between_ofScientific {k : Nat} (hk : k ≤ 307) :
    Between 0 1023 (settle (ofScientific .binary64 1 k)) := by
  have hlarge : ¬ (k : Int) > 2 ^ 11 := by omega
  have hsmall : ¬ (k : Int) < -((2 ^ 11 : Int) + (1 : Nat).log2) := by omega
  rw [ofScientific, dif_neg (by decide), if_neg hlarge, if_neg hsmall, if_pos (by omega), mul]
  have hpow : 0 < 10 ^ k := Nat.pow_pos (by decide)
  have hlog : (1 <<< 53 * 10 ^ k).log2 = (10 ^ k).log2 + 53 := by
    rw [Nat.shiftLeft_eq, Nat.one_mul, Nat.mul_comm, ← Nat.shiftLeft_eq, log2_shiftLeft hpow]
  have hlt : (10 ^ k).log2 < 1023 := by
    rw [Nat.log2_lt hpow.ne']
    calc 10 ^ k ≤ 10 ^ 307 := Nat.pow_le_pow_right (by decide) hk
      _ < 2 ^ 1023 := by decide +kernel
  have hfilled : Filled (1 <<< 53 * 10 ^ k) (-53 + 0) :=
    .inl ((Nat.le_log2 (by omega)).mp (by omega))
  exact (between_settle_round hfilled (by omega) (by omega)).mono (by omega) (by omega)

/-- The powers of ten that numbers are scaled by are at least one. -/
theorem between_powerOfTen {k : Nat} (hk : k ≤ 308) : Between 0 1023 (value (powerOfTen k)) := by
  by_cases hexact : k ≤ 22
  · have hall : ∀ k < 23, Between 0 1023 (value (powerOfTen k)) := by decide +kernel
    exact hall k (Nat.lt_succ_of_le hexact)
  · by_cases hlast : k = 308
    · subst hlast
      decide +kernel
    · have hvalue : value (powerOfTen k) = settle (ofScientific .binary64 1 k) := by
        rw [powerOfTen, Float.ofScientific, dif_neg (by omega)]
        rfl
      rw [hvalue]
      exact between_ofScientific (by omega)

/-- A number that has a value as a double has a finite one. -/
theorem isFinite_of_scale {n : Nat} {exponent : Int} {f : Float}
    (h : scale n exponent = some f) : f.isFinite = true := by
  have hn := below_toFloat n.toUInt64
  unfold scale at h
  dsimp only at h
  split at h
  · split at h
    · rename_i hsmall
      split at h
      · cases h
      · rename_i hinfinite
        cases h
        have hten := between_powerOfTen hsmall
        obtain ⟨s, hs⟩ := exists_signOf hn.isFinite
        obtain ⟨t, ht⟩ := exists_signOf hten.below.isFinite
        have hsign := signOf_mul hs ht (.inr hten)
        exact isFinite_of_signOf hsign (Bool.not_eq_true _ ▸ hinfinite)
    · split at h <;> cases h
      rfl
  · split at h
    · rename_i hsmall
      cases h
      exact isFinite_of_below (below_div hn (between_powerOfTen hsmall) (by decide) (by decide))
    · split at h
      · rename_i hlarge
        cases h
        have hgreatest := between_powerOfTen (k := 308) (by omega)
        have hfirst := below_div hn hgreatest (by decide) (by decide)
        exact isFinite_of_below
          (below_div hfirst (between_powerOfTen (by omega)) (by decide) (by decide))
      · cases h
        rfl

theorem isFinite_of_toFloat? {numeral : Numeral} {f : Float} (h : numeral.toFloat? = some f) :
    f.isFinite = true := by
  simp only [toFloat?, Option.map_eq_some_iff] at h
  obtain ⟨magnitude, hscale, rfl⟩ := h
  split
  · exact Double.isFinite_neg (isFinite_of_scale hscale)
  · exact isFinite_of_scale hscale

end Numeral

theorem Decoder.isFinite_of_float {tree : Tree} {f : Float} (h : Decoder.float tree = .ok f) :
    f.isFinite = true := by
  cases tree with
  | number leaf =>
    simp only [Decoder.float, bind, Except.bind] at h
    split at h
    · cases h
    · split at h
      · rename_i hvalue
        cases h
        exact Numeral.isFinite_of_toFloat? hvalue
      · cases h
  | _ => cases h

theorem Decoder.isFinite_of_optional {tree : Tree} {found : Option Float} {f : Float}
    (h : Decoder.optional Decoder.float tree = .ok found) (hfound : found = some f) :
    f.isFinite = true := by
  subst hfound
  unfold Decoder.optional at h
  split at h
  · rename_i read
    cases read <;> cases h
  · cases hfloat : Decoder.float tree <;> rw [hfloat] at h <;> cases h
    exact isFinite_of_float hfloat

/-! ### Records -/

namespace Record

variable {ρ : Type} {P : ρ → Prop} {fields : List (RecordField ρ)}

/-- A field keeps a property of the record. -/
def Preserved (P : ρ → Prop) (field : RecordField ρ) : Prop :=
  ∀ tree record next, P record → field.read tree record = .ok next → P next

theorem readMembers_preserves (hfields : ∀ field ∈ fields, Preserved P field)
    {members : List (Tree × Tree)} {seen names : List String} {record next : ρ} (hrecord : P record)
    (h : readMembers fields members seen record = .ok (next, names)) : P next := by
  induction members generalizing seen record with
  | nil =>
    cases h
    exact hrecord
  | cons member rest ih =>
    obtain ⟨key, value⟩ := member
    simp only [readMembers, bind, Except.bind] at h
    split at h
    · cases h
    · split at h
      · split at h
        · cases h
        · exact ih hrecord h
      · rename_i field hfind
        split at h
        · cases h
        · split at h
          · cases h
          · rename_i hread
            exact ih (hfields field (List.mem_of_find?_eq_some hfind) _ _ _ hrecord hread) h

theorem readItems_preserves (hfields : ∀ field ∈ fields, Preserved P field) {items : List Tree}
    {ending : Ending} {record next : ρ} (hrecord : P record)
    (h : readItems fields items ending record = .ok next) : P next := by
  induction fields generalizing items record with
  | nil =>
    cases items with
    | nil =>
      simp only [readItems, bind, Except.bind] at h
      split at h <;> cases h
      exact hrecord
    | cons item rest => cases h
  | cons field fields ih =>
    have ih := @ih fun field hfield => hfields field (List.mem_cons_of_mem _ hfield)
    cases items with
    | nil =>
      simp only [readItems, bind, Except.bind] at h
      split at h
      · cases h
      · split at h
        · cases h
        · exact ih hrecord h
    | cons item rest =>
      simp only [readItems, bind, Except.bind] at h
      split at h
      · cases h
      · rename_i hread
        exact ih (hfields field List.mem_cons_self _ _ _ hrecord hread) h

/-- A property that every field keeps holds of the record that is decoded. -/
theorem decode_preserves (hfields : ∀ field ∈ fields, Preserved P field) {tree : Tree}
    {initial record : ρ} (hinitial : P initial) (h : decode fields initial tree = .ok record) :
    P record := by
  unfold decode at h
  split at h
  · exact readItems_preserves hfields hinitial h
  · unfold ofObject at h
    split at h
    · simp only [bind, Except.bind] at h
      split at h
      · cases h
      · rename_i found hmembers
        split at h
        · cases h
        · split at h
          · cases h
            exact readMembers_preserves hfields hinitial hmembers
          · cases h
    · cases h

theorem preserved_must {α : Type} {name : String} {value : Decoder α} {set : α → ρ → ρ}
    (h : ∀ tree a record, value tree = .ok a → P record → P (set a record)) :
    Preserved P (.must name value set) := by
  intro tree record next hrecord hread
  simp only [RecordField.must, bind, Except.bind] at hread
  split at hread
  · cases hread
  · rename_i hvalue
    cases hread
    exact h _ _ _ hvalue hrecord

theorem preserved_may {α : Type} {name : String} {value : Decoder α} {set : α → ρ → ρ}
    (h : ∀ tree a record, value tree = .ok a → P record → P (set a record)) :
    Preserved P (.may name value set) :=
  @preserved_must ρ P α name value set h

end Record

end Json

/-! ### Metrics -/

deriving instance DecidableEq for Metrics

namespace Metrics

open Json

/-- All measures are finite. -/
structure AllFinite (metrics : Metrics) : Prop where
  unitsPerEm : metrics.unitsPerEm.isFinite = true
  ascent : metrics.ascent.isFinite = true
  descent : metrics.descent.isFinite = true
  lineGap : metrics.lineGap.isFinite = true
  averageWidth : ∀ width ∈ metrics.averageWidth, width.isFinite = true

theorem allFinite_of_decode {tree : Tree} {metrics : Metrics}
    (h : Metrics.decode tree = .ok metrics) : metrics.AllFinite := by
  refine Record.decode_preserves ?_ ⟨rfl, rfl, rfl, rfl, fun _ h => by cases h⟩ h
  simp only [fields, List.forall_mem_cons]
  refine ⟨Record.preserved_must ?_, Record.preserved_must ?_, Record.preserved_must ?_,
    Record.preserved_may ?_, Record.preserved_may ?_, nofun⟩
  · exact fun _ _ _ h hrest => { hrest with unitsPerEm := Decoder.isFinite_of_float h }
  · exact fun _ _ _ h hrest => { hrest with ascent := Decoder.isFinite_of_float h }
  · exact fun _ _ _ h hrest => { hrest with descent := Decoder.isFinite_of_float h }
  · exact fun _ _ _ h hrest => { hrest with lineGap := Decoder.isFinite_of_float h }
  · intro tree width record h hrest
    exact { hrest with averageWidth := fun _ hw => Decoder.isFinite_of_optional h hw }

theorem allFinite_of_ofText {text : String} {metrics : Metrics}
    (h : Decoder.ofText Metrics.decode text = .ok metrics) : metrics.AllFinite := by
  simp only [Decoder.ofText, bind, Except.bind] at h
  split at h
  · cases h
  · rename_i hdecode
    split at h <;> cases h
    exact allFinite_of_decode hdecode

end Metrics

end WebFonts
