import WebFonts.Json.Leaf

/-!
# JSON numbers

A JSON number is kept as it is written. `Numeral.toFloat?` gives the double that it stands for: the
digits that fit into 64 bits are taken as an integer, which is then multiplied or divided by a power
of ten, each operation rounded to nearest. A number beyond the range of doubles has no value.
-/

namespace WebFonts.Json

/-- A JSON number as it is written. -/
structure Numeral where
  negative : Bool
  /-- The digits before the point. -/
  whole : List Char
  /-- The digits behind the point. -/
  fraction : List Char
  /-- The power of ten behind the exponent mark, zero if there is none. -/
  exponent : Int
deriving Repr, DecidableEq

namespace Numeral

/-- The value of a decimal digit. -/
def digitValue (c : Char) : Nat :=
  c.toNat - '0'.toNat

/-- The number that a run of decimal digits stands for. -/
def ofDigits (digits : List Char) : Nat :=
  digits.foldl (fun n c => 10 * n + digitValue c) 0

/-- Appends digits to a number while it stays below `2 ^ 64`, and gives the digits left over. -/
def absorb (n : Nat) : List Char → Nat × List Char
  | [] => (n, [])
  | c :: rest =>
    let longer := 10 * n + digitValue c
    if longer < Nat.pow 2 64 then absorb longer rest else (n, c :: rest)

/-- The double nearest to a power of ten. -/
def powerOfTen (exponent : Nat) : Float :=
  Float.ofScientific 1 false exponent

/-- A 64-bit number times a power of ten, if it is in the range of doubles. Powers below the least
that is a double are divided off in two parts. -/
def scale (n : Nat) (exponent : Int) : Option Float :=
  let f := n.toUInt64.toFloat
  let distance := exponent.natAbs
  if exponent ≥ 0 then
    if distance ≤ 308 then
      let product := f * powerOfTen distance
      if product.isInf then none else some product
    else if n = 0 then some 0 else none
  else if distance ≤ 308 then some (f / powerOfTen distance)
  else if distance ≤ 616 then some (f / powerOfTen 308 / powerOfTen (distance - 308))
  else some 0

/-- The double that a number stands for, if it is in range. Leading digits that do not fit into 64
bits only count as powers of ten, and such digits behind the point are dropped. -/
def toFloat? (numeral : Numeral) : Option Float :=
  let (whole, leftWhole) := absorb 0 numeral.whole
  let (digits, leftFraction) := absorb whole numeral.fraction
  let absorbed := numeral.fraction.length - leftFraction.length
  let magnitude := scale digits (leftWhole.length - absorbed + numeral.exponent)
  magnitude.map fun f => if numeral.negative then -f else f

/-- The natural number that is written, if it is written without sign, point and exponent. -/
def toNat? (numeral : Numeral) : Option Nat :=
  if !numeral.negative && numeral.fraction.isEmpty && numeral.exponent == 0 then
    some (ofDigits numeral.whole)
  else none

end Numeral

/-! ### Reading -/

namespace Numeral

/-- A number that lacks a digit, with `rest` behind it. One that the text cuts off is malformed
when it is passed over. -/
def lacking (rest : List Char) : Leaf Numeral × List Char :=
  (⟨.error (if rest.isEmpty then .truncated else .malformed), .error .malformed⟩, rest)

/-- The decimal digits at the start of a text. -/
def spanDigits (text : List Char) : List Char × List Char :=
  (text.takeWhile Char.isDigit, text.dropWhile Char.isDigit)

/-- A number that is complete, if it is in range. -/
def complete (numeral : Numeral) (rest : List Char) : Leaf Numeral × List Char :=
  let read := if numeral.toFloat?.isSome then .ok numeral else .error .malformed
  (⟨read, .ok ()⟩, rest)

/-- Whether a text begins with a minus, and the text behind it. -/
def takeMinus : List Char → Bool × List Char
  | '-' :: rest => (true, rest)
  | text => (false, text)

/-- The sign of an exponent, which may also be a plus, and the text behind it. -/
def takeSign : List Char → Bool × List Char
  | '+' :: rest => (false, rest)
  | text => takeMinus text

/-- Reads the exponent of a number, if it has one. -/
def readExponent (numeral : Numeral) (text : List Char) : Leaf Numeral × List Char :=
  match text with
  | c :: rest =>
    if c == 'e' || c == 'E' then
      let (negative, unsigned) := takeSign rest
      let (digits, after) := spanDigits unsigned
      if digits.isEmpty then lacking after
      else
        let exponent : Int := ofDigits digits
        complete { numeral with exponent := if negative then -exponent else exponent } after
    else complete numeral text
  | [] => complete numeral []

/-- Reads the fraction of a number, if it has one, and its exponent. -/
def readFraction (numeral : Numeral) (text : List Char) : Leaf Numeral × List Char :=
  match text with
  | '.' :: rest =>
    let (digits, after) := spanDigits rest
    if digits.isEmpty then lacking after
    else readExponent { numeral with fraction := digits } after
  | _ => readExponent numeral text

/-- Reads a number. The whole part has at least one digit, and more than one only if the first is
not a zero. -/
def read (text : List Char) : Leaf Numeral × List Char :=
  let (negative, unsigned) := takeMinus text
  let (digits, after) := spanDigits unsigned
  match digits with
  | [] => lacking after
  | '0' :: _ :: _ => (.broken .malformed, after)
  | _ => readFraction ⟨negative, digits, [], 0⟩ after

/-! ### Lengths -/

theorem length_spanDigits (text : List Char) :
    (spanDigits text).1.length + (spanDigits text).2.length = text.length := by
  rw [← List.length_append, spanDigits, List.takeWhile_append_dropWhile]

theorem length_takeMinus_le (text : List Char) : (takeMinus text).2.length ≤ text.length := by
  unfold takeMinus; split <;> simp

theorem length_takeSign_le (text : List Char) : (takeSign text).2.length ≤ text.length := by
  unfold takeSign
  split
  · simp
  · exact length_takeMinus_le text

theorem length_readExponent_le (numeral : Numeral) (text : List Char) :
    (readExponent numeral text).2.length ≤ text.length := by
  unfold readExponent
  split
  · next c rest =>
    have := length_takeSign_le rest
    have := length_spanDigits (takeSign rest).2
    split
    · dsimp only
      split <;> simp only [lacking, complete, List.length_cons] <;> omega
    · simp [complete]
  · simp [complete]

theorem length_readFraction_le (numeral : Numeral) (text : List Char) :
    (readFraction numeral text).2.length ≤ text.length := by
  unfold readFraction
  split
  · next rest =>
    have := length_spanDigits rest
    dsimp only
    split
    · simp only [lacking, List.length_cons]; omega
    · have := length_readExponent_le { numeral with fraction := (spanDigits rest).1 }
        (spanDigits rest).2
      simp only [List.length_cons]
      omega
  · exact length_readExponent_le numeral text

/-- A number that can be passed over has at least one character. -/
theorem length_lt_of_read {text after : List Char} {leaf : Leaf Numeral}
    (h : read text = (leaf, after)) (hskip : leaf.skip = .ok ()) : after.length < text.length := by
  have := length_takeMinus_le text
  have := length_spanDigits (takeMinus text).2
  unfold read at h
  dsimp only at h
  split at h
  · cases h; cases hskip
  · cases h; cases hskip
  · next hne _ =>
    have hfraction := length_readFraction_le
      ⟨(takeMinus text).1, (spanDigits (takeMinus text).2).1, [], 0⟩
      (spanDigits (takeMinus text).2).2
    rw [h] at hfraction
    have := List.length_pos_iff.mpr hne
    dsimp only at hfraction
    omega

end Numeral

end WebFonts.Json
