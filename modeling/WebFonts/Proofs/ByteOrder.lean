import Mathlib.Algebra.Group.Nat.Defs
import Mathlib.Tactic.SplitIfs
import Std.Data.ExtTreeSet
import WebFonts.Proofs.OverlayRuns

/-!
# The order of texts is the order of their bytes

Sets list their texts in the order of the characters, code by code. `bytes_lt` says that the bytes
of the texts in UTF-8 are then in order as well, byte by byte.

A character is a first byte, which tells how many bytes follow, and these followers, six bits each
(`utf8EncodeChar_eq`). Of two characters with the same number of bytes the smaller one has smaller
digits to the base 64 (`followers_lt`); with more bytes the first byte is greater (`lead_lt`).
-/

namespace WebFonts.Text

open Edit (bytes)

/-! ### Bytes of a character -/

/-- The number of bytes behind the first one of a character. -/
def followerCount (code : Nat) : Nat :=
  if code ≤ 0x7f then 0 else if code ≤ 0x7ff then 1 else if code ≤ 0xffff then 2 else 3

/-- What the first byte of a character holds beside its digit, by the number of bytes behind it. -/
def leadMark : Nat → Nat
  | 0 => 0
  | 1 => 0xc0
  | 2 => 0xe0
  | _ => 0xf0

/-- The first byte of a character. -/
def lead (code : Nat) : Nat :=
  code / 64 ^ followerCount code + leadMark (followerCount code)

/-- The last bytes of a character, with one digit to the base 64 in each. -/
def followers : Nat → Nat → List UInt8
  | 0, _ => []
  | n + 1, code => UInt8.ofNat (code / 64 ^ n % 64 + 128) :: followers n code

theorem toNat_lt_of_char (c : Char) : c.toNat < 0x110000 := by
  rcases c.valid with h | h
  · exact Nat.lt_trans h (by decide)
  · exact h.2

theorem utf8EncodeChar_eq (c : Char) :
    String.utf8EncodeChar c =
      UInt8.ofNat (lead c.toNat) :: followers (followerCount c.toNat) c.toNat := by
  have hbound := toNat_lt_of_char c
  unfold String.utf8EncodeChar lead followerCount
  dsimp only
  rw [Char.toNat_val]
  generalize c.toNat = code at hbound ⊢
  split_ifs
  · simp [followers, leadMark]
  · have hlead : code / 64 % 0x20 = code / 64 := by omega
    simp [followers, leadMark, hlead]
  · have hlead : code / 4096 % 0x10 = code / 4096 := by omega
    simp [followers, leadMark, hlead]
  · have hlead : code / 262144 % 0x08 = code / 262144 := by omega
    simp [followers, leadMark, hlead]

/-! ### Characters in order -/

variable {n code other : Nat}

theorem ofNat_lt_iff {a b : Nat} (ha : a < 256) (hb : b < 256) :
    UInt8.ofNat a < UInt8.ofNat b ↔ a < b := by
  rw [UInt8.lt_iff_toNat_lt, UInt8.toNat_ofNat_of_lt' ha, UInt8.toNat_ofNat_of_lt' hb]

theorem followers_lt (hlead : code / 64 ^ n = other / 64 ^ n) (h : code < other)
    (front back : List UInt8) : followers n code ++ front < followers n other ++ back := by
  induction n with
  | zero =>
    rw [Nat.pow_zero, Nat.div_one, Nat.div_one] at hlead
    exact absurd hlead (Nat.ne_of_lt h)
  | succ n ih =>
    have hdigit (a : Nat) : a / 64 ^ (n + 1) = a / 64 ^ n / 64 := by
      rw [Nat.pow_succ, Nat.div_div_eq_div_mul]
    rw [hdigit, hdigit] at hlead
    rw [followers, followers, List.cons_append, List.cons_append, List.cons_lt_cons_iff]
    have hle : code / 64 ^ n ≤ other / 64 ^ n := Nat.div_le_div_right (Nat.le_of_lt h)
    rcases Nat.eq_or_lt_of_le hle with heq | hlt
    · exact .inr ⟨by rw [heq], ih heq⟩
    · refine .inl ((ofNat_lt_iff ?_ ?_).mpr ?_) <;> omega

theorem lead_lt_256 (h : code < 0x110000) : lead code < 256 := by
  unfold lead followerCount
  split_ifs <;> simp [leadMark] <;> omega

/-- A character with more bytes begins with a greater one. -/
theorem lead_lt (hother : other < 0x110000) (h : code < other)
    (hcount : followerCount code ≠ followerCount other) : lead code < lead other := by
  unfold lead followerCount at *
  split_ifs at hcount ⊢ <;> simp [leadMark] <;> omega

theorem utf8EncodeChar_lt {c d : Char} (h : c < d) (front back : List UInt8) :
    String.utf8EncodeChar c ++ front < String.utf8EncodeChar d ++ back := by
  have hlt : c.toNat < d.toNat := h
  have hc := lead_lt_256 (toNat_lt_of_char c)
  have hd := lead_lt_256 (toNat_lt_of_char d)
  rw [utf8EncodeChar_eq, utf8EncodeChar_eq, List.cons_append, List.cons_append,
    List.cons_lt_cons_iff, ofNat_lt_iff hc hd]
  by_cases hcount : followerCount c.toNat = followerCount d.toNat
  · unfold lead
    rw [hcount]
    have hle : c.toNat / 64 ^ followerCount d.toNat ≤ d.toNat / 64 ^ followerCount d.toNat :=
      Nat.div_le_div_right (Nat.le_of_lt hlt)
    rcases Nat.eq_or_lt_of_le hle with heq | hdigit
    · exact .inr ⟨by rw [heq], followers_lt heq hlt front back⟩
    · exact .inl (Nat.add_lt_add_right hdigit _)
  · exact .inl (lead_lt (toNat_lt_of_char d) hlt hcount)

/-! ### Texts in order -/

theorem flatMap_utf8EncodeChar_lt {text other : List Char} (h : text < other) :
    text.flatMap String.utf8EncodeChar < other.flatMap String.utf8EncodeChar := by
  induction h with
  | @nil c rest =>
    rw [List.flatMap_nil, List.flatMap_cons, utf8EncodeChar_eq]
    exact .nil
  | rel hlt =>
    rw [List.flatMap_cons, List.flatMap_cons]
    exact utf8EncodeChar_lt hlt _ _
  | cons _ ih =>
    rw [List.flatMap_cons, List.flatMap_cons]
    exact List.append_left_lt ih

/-- Texts that are in order have bytes that are in order. -/
theorem bytes_lt {text other : String} (h : text < other) : bytes text < bytes other := by
  rw [Overlay.bytes_eq, Overlay.bytes_eq]
  exact flatMap_utf8EncodeChar_lt (String.lt_iff.mp h)

/-- A set lists its texts in the strict order of their bytes. -/
theorem pairwise_bytes_lt (texts : Std.ExtTreeSet String) :
    texts.toList.Pairwise fun text other => bytes text < bytes other :=
  texts.ordered_toList.imp fun h => bytes_lt (compareOfLessAndEq_eq_lt.mp h)

end WebFonts.Text
