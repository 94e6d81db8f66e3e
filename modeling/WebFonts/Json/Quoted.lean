import WebFonts.Json.Leaf
import WebFonts.Text.Bytes
import WebFonts.Text.Hex

/-!
# JSON strings

`Quoted.read` reads the inside of a string up to its closing quote. A surrogate escape must be
followed by its partner for the string to be read; a string with a lone surrogate can still be
passed over.
-/

namespace WebFonts.Json.Quoted

open Text (isHexDigit hexNumber)

/-- The character behind a backslash that stands for one character, if it does. -/
def simpleEscape? : Char → Option Char
  | '"' => some '"'
  | '\\' => some '\\'
  | '/' => some '/'
  | 'b' => some '\x08'
  | 'f' => some '\x0C'
  | 'n' => some '\n'
  | 'r' => some '\r'
  | 't' => some '\t'
  | _ => none

/-- Reads the four hexadecimal digits of an escape. The text breaks off if fewer than four bytes
are left. -/
def readUnit : List Char → Except Fault (Nat × List Char)
  | a :: b :: c :: d :: rest =>
    if [a, b, c, d].all isHexDigit then .ok (hexNumber [a, b, c, d], rest) else .error .malformed
  | text => .error (if Text.size text < 4 then .truncated else .malformed)

/-- Whether a code unit is the first of a surrogate pair. -/
def isHighSurrogate (unit : Nat) : Bool :=
  0xD800 ≤ unit && unit ≤ 0xDBFF

/-- Whether a code unit is the second of a surrogate pair. -/
def isLowSurrogate (unit : Nat) : Bool :=
  0xDC00 ≤ unit && unit ≤ 0xDFFF

/-- The character that a surrogate pair stands for. -/
def combine (high low : Nat) : Char :=
  Char.ofNat (0x10000 + (high - 0xD800) * 0x400 + (low - 0xDC00))

/-- What is read behind a `\u` escape: a character, nothing but a fault, or a lone surrogate, and
the text behind it. -/
inductive Escaped where
  | char (c : Char) (rest : List Char)
  | lone (rest : List Char)
  | broken (fault : Fault)

/-- Reads what stands behind `\u`. -/
def readEscaped (text : List Char) : Escaped :=
  match readUnit text with
  | .error fault => .broken fault
  | .ok (unit, rest) =>
    if isLowSurrogate unit then .lone rest
    else if isHighSurrogate unit then
      match rest with
      | [] | ['\\'] => .broken .truncated
      | '\\' :: 'u' :: behind =>
        match readUnit behind with
        | .error fault => .broken fault
        | .ok (low, last) =>
          if isLowSurrogate low then .char (combine unit low) last else .lone last
      | _ => .lone rest
    else .char (Char.ofNat unit) rest

/-- The text behind an escape. -/
def Escaped.rest? : Escaped → Option (List Char)
  | char _ rest => some rest
  | lone rest => some rest
  | broken _ => none

theorem length_lt_of_readUnit {text rest : List Char} {unit : Nat}
    (h : readUnit text = .ok (unit, rest)) : rest.length < text.length := by
  unfold readUnit at h
  split at h
  · split at h <;> cases h
    simp; omega
  · cases h

theorem length_lt_of_readEscaped {text rest : List Char}
    (h : (readEscaped text).rest? = some rest) :
    rest.length < text.length := by
  unfold readEscaped at h
  split at h
  · cases h
  · next unit behind hunit =>
    have hlt := length_lt_of_readUnit hunit
    split at h
    · cases h; exact hlt
    · split at h
      · split at h
        · cases h
        · cases h
        · split at h
          · cases h
          · next hlow =>
            have := length_lt_of_readUnit hlow
            simp only [List.length_cons] at hlt
            split at h <;> cases h <;> omega
        · cases h; exact hlt
      · cases h; exact hlt

/-- A leaf with one more character in front. -/
def prepend (c : Char) (tail : Leaf (List Char)) : Leaf (List Char) :=
  { tail with read := (c :: ·) <$> tail.read }

/-- Reads the inside of a string, behind its opening quote, and gives the text behind the closing
one. -/
def readInside (text : List Char) : Leaf (List Char) × List Char :=
  match text with
  | [] => (.broken .truncated, [])
  | '"' :: rest => (.ofValue [], rest)
  | '\\' :: 'u' :: rest =>
    match _h : readEscaped rest with
    | .char c after =>
      let (tail, last) := readInside after
      (prepend c tail, last)
    | .lone after =>
      let (tail, last) := readInside after
      (⟨.error .malformed, tail.skip⟩, last)
    | .broken fault => (.broken fault, [])
  | '\\' :: c :: rest =>
    match simpleEscape? c with
    | some c =>
      let (tail, last) := readInside rest
      (prepend c tail, last)
    | none => (.broken .malformed, [])
  | ['\\'] => (.broken .truncated, [])
  | c :: rest =>
    if c.toNat < 0x20 then (.broken .malformed, [])
    else
      let (tail, last) := readInside rest
      (prepend c tail, last)
termination_by text.length
decreasing_by
  · have := length_lt_of_readEscaped
      (show (readEscaped rest).rest? = some after by simp [*, Escaped.rest?])
    simp; omega
  · have := length_lt_of_readEscaped
      (show (readEscaped rest).rest? = some after by simp [*, Escaped.rest?])
    simp; omega
  · simp only [List.length_cons]; omega
  · exact Nat.lt_succ_self _

theorem length_readInside_le (text : List Char) : (readInside text).2.length ≤ text.length := by
  fun_induction readInside text with
  | case1 => simp
  | case2 => simp
  | case3 rest c after hesc tail last heq ih =>
    have := length_lt_of_readEscaped (show (readEscaped rest).rest? = some after by
      simp [hesc, Escaped.rest?])
    simp only [heq, List.length_cons] at ih ⊢
    omega
  | case4 rest after hesc tail last heq ih =>
    have := length_lt_of_readEscaped (show (readEscaped rest).rest? = some after by
      simp [hesc, Escaped.rest?])
    simp only [heq, List.length_cons] at ih ⊢
    omega
  | case5 => simp
  | case6 c rest _ c' hc tail last heq ih => simp only [heq, List.length_cons] at ih ⊢; omega
  | case7 => simp
  | case8 => simp
  | case9 => simp
  | case10 c rest _ _ _ _ _ tail last heq ih => simp only [heq, List.length_cons] at ih ⊢; omega

/-- Reads the inside of a string as text. -/
def read (text : List Char) : Leaf String × List Char :=
  let (leaf, rest) := readInside text
  (⟨String.ofList <$> leaf.read, leaf.skip⟩, rest)

end WebFonts.Json.Quoted
