import WebFonts.Css.Cursor
import WebFonts.Text.Blank

/-!
# Lexemes: the indivisible stretches of a stylesheet

A quoted string, a comment, and a backslash with the character behind it are taken whole by every
reader; any other character stands for itself. `Cursor.lexeme?` reads one lexeme, and
`Cursor.reads_lexeme?` says that it takes a non-empty text and loses nothing.
-/

namespace WebFonts.Css

open Text (size isBlank)

/-- One indivisible stretch of stylesheet text. -/
inductive Lexeme where
  /-- A string, its quotes included. -/
  | quoted (text : List Char)
  /-- A comment, its delimiters included. -/
  | comment (text : List Char)
  /-- A backslash and the character that it protects; at the end of a text it stands alone. -/
  | escape (text : List Char)
  /-- Any other character. -/
  | plain (c : Char)
deriving Repr, DecidableEq

namespace Lexeme

/-- The characters of a lexeme. -/
def text : Lexeme → List Char
  | quoted text => text
  | comment text => text
  | escape text => text
  | plain c => [c]

/-- Whether a lexeme separates others and means nothing itself: a comment or a blank. -/
def isTrivia : Lexeme → Bool
  | comment _ => true
  | plain c => isBlank c
  | _ => false

end Lexeme

/-! ### Strings and comments -/

/-- Whether a character opens a string. -/
def isQuote (c : Char) : Bool :=
  c == '"' || c == '\''

/-- Reads the inside of a string up to and including the closing `quote`. A backslash protects the
character behind it, and a bare line feed ends the attempt. -/
def closeQuote? (quote : Char) : List Char → Option (List Char × List Char)
  | [] => none
  | ['\\'] => none
  | '\\' :: c :: rest =>
    (closeQuote? quote rest).map fun (inside, after) => ('\\' :: c :: inside, after)
  | '\n' :: _ => none
  | c :: rest =>
    if c == quote then some ([c], rest)
    else (closeQuote? quote rest).map fun (inside, after) => (c :: inside, after)

/-- Reads the inside of a comment up to and including the closing `*/`. -/
def closeComment? : List Char → Option (List Char × List Char)
  | [] => none
  | '*' :: '/' :: rest => some (['*', '/'], rest)
  | c :: rest => (closeComment? rest).map fun (inside, after) => (c :: inside, after)

theorem append_of_closeQuote? {quote : Char} {text inside after : List Char}
    (h : closeQuote? quote text = some (inside, after)) : text = inside ++ after := by
  fun_induction closeQuote? quote text generalizing inside after <;> grind [Option.map_eq_some_iff]

theorem append_of_closeComment? {text inside after : List Char}
    (h : closeComment? text = some (inside, after)) : text = inside ++ after := by
  fun_induction closeComment? text generalizing inside after <;> grind [Option.map_eq_some_iff]

/-! ### One lexeme -/

namespace Cursor

/-- Reads the lexeme at the cursor, if the text has not ended. -/
def lexeme? (cur : Cursor) : Except Fault (Option (Lexeme × Cursor)) :=
  match cur.rest with
  | [] => .ok none
  | '/' :: '*' :: rest =>
    match closeComment? rest with
    | some (inside, after) =>
      let text := '/' :: '*' :: inside
      .ok (some (.comment text, cur.pass text after))
    | none => cur.fail .unterminatedComment
  | '\\' :: c :: rest => .ok (some (.escape ['\\', c], cur.pass ['\\', c] rest))
  | ['\\'] => .ok (some (.escape ['\\'], cur.pass ['\\'] []))
  | c :: rest =>
    if isQuote c then
      match closeQuote? c rest with
      | some (inside, after) => .ok (some (.quoted (c :: inside), cur.pass (c :: inside) after))
      | none => cur.fail .unterminatedString
    else .ok (some (.plain c, cur.pass [c] rest))

/-- A lexeme that was read is what stood at the cursor. -/
theorem reads_lexeme? {cur next : Cursor} {lexeme : Lexeme}
    (h : cur.lexeme? = .ok (some (lexeme, next))) : Reads cur lexeme.text next := by
  unfold lexeme? fail at h
  split at h
  · cases h
  · rename_i hrest
    split at h <;> cases h
    rename_i hclose
    exact reads_pass (by simp [hrest, Lexeme.text, append_of_closeComment? hclose])
  · cases h; exact reads_pass ‹_›
  · cases h; exact reads_pass ‹_›
  · rename_i hrest
    split at h
    · split at h <;> cases h
      rename_i hclose
      exact reads_pass (by simp [hrest, Lexeme.text, append_of_closeQuote? hclose])
    · cases h; exact reads_pass hrest

/-- No lexeme is empty. -/
theorem text_ne_nil_of_lexeme? {cur next : Cursor} {lexeme : Lexeme}
    (h : cur.lexeme? = .ok (some (lexeme, next))) : lexeme.text ≠ [] := by
  unfold lexeme? fail at h
  split at h
  · cases h
  · split at h <;> cases h
    simp [Lexeme.text]
  · cases h; simp [Lexeme.text]
  · cases h; simp [Lexeme.text]
  · split at h
    · split at h <;> cases h
      simp [Lexeme.text]
    · cases h; simp [Lexeme.text]

theorem length_lt_of_lexeme? {cur next : Cursor} {lexeme : Lexeme}
    (h : cur.lexeme? = .ok (some (lexeme, next))) : next.rest.length < cur.rest.length :=
  (reads_lexeme? h).length_lt (text_ne_nil_of_lexeme? h)

end Cursor

end WebFonts.Css
