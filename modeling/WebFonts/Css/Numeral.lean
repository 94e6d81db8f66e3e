import WebFonts.Css.Cursor

/-!
# Numbers as they are written

A number is an optional sign, digits with an optional fraction (or a fraction alone), and an
optional exponent. A point or an exponent mark that no digit follows does not belong to it.
-/

namespace WebFonts.Css

namespace Numeral

/-- The leading decimal digits of a text. -/
def spanDigits (text : List Char) : List Char × List Char :=
  (text.takeWhile Char.isDigit, text.dropWhile Char.isDigit)

/-- The sign that a text may begin with. -/
def spanSign : List Char → List Char × List Char
  | '+' :: rest => (['+'], rest)
  | '-' :: rest => (['-'], rest)
  | text => ([], text)

/-- The fraction that a text may begin with: a point and at least one digit. -/
def spanFraction (text : List Char) : List Char × List Char :=
  match text with
  | '.' :: rest =>
    match spanDigits rest with
    | ([], _) => ([], text)
    | (digits, after) => ('.' :: digits, after)
  | _ => ([], text)

/-- The exponent that a text may begin with: a mark, an optional sign and at least one digit. -/
def spanExponent (text : List Char) : List Char × List Char :=
  match text with
  | c :: rest =>
    if c == 'e' || c == 'E' then
      let (sign, unsigned) := spanSign rest
      match spanDigits unsigned with
      | ([], _) => ([], text)
      | (digits, after) => (c :: sign ++ digits, after)
    else ([], text)
  | [] => ([], [])

theorem spanDigits_append (text : List Char) : (spanDigits text).1 ++ (spanDigits text).2 = text :=
  List.takeWhile_append_dropWhile

theorem spanSign_append (text : List Char) : (spanSign text).1 ++ (spanSign text).2 = text := by
  unfold spanSign; split <;> rfl

theorem spanFraction_append (text : List Char) :
    (spanFraction text).1 ++ (spanFraction text).2 = text := by
  unfold spanFraction
  split
  · next rest =>
    have := spanDigits_append rest
    split <;> simp_all
  · rfl

theorem spanExponent_append (text : List Char) :
    (spanExponent text).1 ++ (spanExponent text).2 = text := by
  unfold spanExponent
  split
  · next c rest =>
    split
    · have hsign := spanSign_append rest
      have hdigits := spanDigits_append (spanSign rest).2
      dsimp only
      split
      · rfl
      · next digits after h =>
        rw [h] at hdigits
        simp only [List.cons_append, List.append_assoc]
        rw [hdigits, hsign]
    · rfl
  · rfl

end Numeral

open Numeral in
/-- Reads the number at the cursor, if one stands there. -/
def Cursor.numeral? (cur : Cursor) : Option (List Char × Cursor) :=
  let (sign, unsigned) := spanSign cur.rest
  let (whole, afterWhole) := spanDigits unsigned
  let (fraction, afterFraction) := spanFraction afterWhole
  if whole.isEmpty && fraction.isEmpty then none
  else
    let (exponent, after) := spanExponent afterFraction
    let number := sign ++ whole ++ fraction ++ exponent
    some (number, cur.pass number after)

open Numeral in
theorem Cursor.reads_numeral? {cur next : Cursor} {number : List Char}
    (h : cur.numeral? = some (number, next)) : Reads cur number next ∧ number ≠ [] := by
  unfold numeral? at h
  dsimp only at h
  split at h
  · cases h
  · next hsome =>
    cases h
    refine ⟨reads_pass ?_, ?_⟩
    · simp only [List.append_assoc, spanExponent_append, spanFraction_append, spanDigits_append,
        spanSign_append]
    · intro hnil
      simp_all

end WebFonts.Css
