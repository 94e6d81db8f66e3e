import WebFonts.Css.Cursor
import WebFonts.Text.Blank
import WebFonts.Text.Hex

/-!
# Names and escapes

A name is a run of letters, digits, hyphens, underscores, characters outside ASCII and escapes. An
identifier is a name that does not begin like a number. `unescape` gives the text that a name or
the inside of a string stands for.
-/

namespace WebFonts.Css

open Text (isEscapeBlank isHexDigit hexNumber)

/-! ### The characters of a name -/

/-- Whether a character may begin a name: an ASCII letter, an underscore, or any character outside
ASCII. -/
def isNameStart (c : Char) : Bool :=
  c.isAlpha || c == '_' || 0x80 ≤ c.toNat

/-- Whether a character may stand inside a name. -/
def isNameChar (c : Char) : Bool :=
  isNameStart c || c.isDigit || c == '-'

/-- Divides a text behind the name that it begins with. The name may be empty. -/
def spanName : List Char → List Char × List Char
  | '\\' :: c :: rest =>
    let (name, after) := spanName rest
    ('\\' :: c :: name, after)
  | c :: rest =>
    if isNameChar c then
      let (name, after) := spanName rest
      (c :: name, after)
    else ([], c :: rest)
  | [] => ([], [])

theorem spanName_append (text : List Char) : (spanName text).1 ++ (spanName text).2 = text := by
  fun_induction spanName text <;> simp_all

/-- Whether a text begins with a character that may start a name, or with an escape. -/
def beginsName : List Char → Bool
  | '\\' :: _ :: _ => true
  | c :: _ => isNameStart c
  | [] => false

/-- Whether a text begins with an identifier: a name that starts with two hyphens, or with at most
one hyphen and then a starting character. -/
def beginsIdentifier : List Char → Bool
  | '-' :: '-' :: _ => true
  | '-' :: rest => beginsName rest
  | text => beginsName text

/-- An identifier is never empty. -/
theorem spanName_ne_nil_of_beginsIdentifier {text : List Char} (h : beginsIdentifier text = true) :
    (spanName text).1 ≠ [] := by
  unfold beginsIdentifier beginsName at h
  unfold spanName
  grind [isNameChar]

namespace Cursor

/-- Reads the name at the cursor, which may be empty. -/
def name (cur : Cursor) : List Char × Cursor :=
  let (name, after) := spanName cur.rest
  (name, cur.pass name after)

/-- Reads the identifier at the cursor, if one stands there. -/
def identifier? (cur : Cursor) : Option (List Char × Cursor) :=
  if beginsIdentifier cur.rest then some cur.name else none

theorem reads_name (cur : Cursor) : Reads cur cur.name.1 cur.name.2 :=
  reads_pass (spanName_append cur.rest).symm

theorem reads_identifier? {cur next : Cursor} {name : List Char}
    (h : cur.identifier? = some (name, next)) : Reads cur name next ∧ name ≠ [] := by
  unfold identifier? at h
  split at h
  · next hbegins =>
    cases h
    exact ⟨cur.reads_name, spanName_ne_nil_of_beginsIdentifier hbegins⟩
  · cases h

end Cursor

/-! ### Escapes -/

/-- The character with a given code point. Zero, the surrogates and numbers beyond Unicode stand
for the replacement character. -/
def charOfCode (code : Nat) : Char :=
  if code ≠ 0 ∧ code.isValidChar then Char.ofNat code else '\uFFFD'

/-- The digits of a hexadecimal escape at the start of a text: at most six. -/
def escapeDigits (text : List Char) : List Char :=
  (text.take 6).takeWhile isHexDigit

/-- The text without the one blank that may close a hexadecimal escape. -/
def dropEscapeBlank : List Char → List Char
  | c :: rest => if isEscapeBlank c then rest else c :: rest
  | [] => []

theorem length_dropEscapeBlank_le (text : List Char) :
    (dropEscapeBlank text).length ≤ text.length := by
  unfold dropEscapeBlank
  split
  · split <;> simp
  · simp

/-- Dropping some characters and then a blank leaves no longer text. -/
theorem length_dropEscapeBlank_drop_le (n : Nat) (text : List Char) :
    (dropEscapeBlank (text.drop n)).length ≤ text.length := by
  have := length_dropEscapeBlank_le (text.drop n)
  rw [List.length_drop] at this
  omega

/-- The text that a name or the inside of a string stands for. A backslash and up to six
hexadecimal digits stand for the character with that code point and take one blank with them; a
backslash before a line feed stands for nothing, and before any other character for that
character. -/
def unescape : List Char → List Char
  | [] => []
  | '\\' :: text =>
    let digits := escapeDigits text
    if digits.isEmpty then
      match text with
      | [] => []
      | '\n' :: rest => unescape rest
      | c :: rest => c :: unescape rest
    else charOfCode (hexNumber digits) :: unescape (dropEscapeBlank (text.drop digits.length))
  | c :: rest => c :: unescape rest
termination_by text => text.length
decreasing_by
  · simp only [List.length_cons]; omega
  · simp only [List.length_cons]; omega
  · exact Nat.lt_succ_of_le (length_dropEscapeBlank_drop_le ..)
  · exact Nat.lt_succ_self _

end WebFonts.Css
