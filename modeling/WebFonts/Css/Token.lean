import WebFonts.Css.Name
import WebFonts.Css.Numeral
import WebFonts.Css.Trivia
import WebFonts.Text.Blank
import WebFonts.Text.Case

/-!
# Tokens of declaration values

A value is a sequence of tokens, function openings and closing parentheses; `Piece` is one of
these. `Cursor.piece?` reads the piece at the cursor. An attempt to read `url(…)` as one token that
fails for any reason leaves the opening of a function named `url`.
-/

namespace WebFonts.Css

open Text (size lower)

/-- A token of a declaration value, with its escapes resolved. -/
inductive Token where
  | ident (name : String)
  /-- A string without its quotes. -/
  | string (text : String)
  | number (digits : String)
  | percentage (digits : String)
  | dimension (digits unit : String)
  | hash (name : String)
  /-- The address inside `url(…)`. -/
  | url (address : String)
  | comma
  | slash
  /-- A character that begins none of the others. -/
  | delim (c : Char)
deriving Repr, DecidableEq

/-- What can stand at one place of a value. -/
inductive Piece where
  | token (token : Token)
  /-- `name(`. -/
  | opening (name : String)
  /-- `)`. -/
  | closing
deriving Repr, DecidableEq

/-- The text that a quoted string stands for. -/
def contents (quoted : List Char) : String :=
  String.ofList (unescape (quoted.drop 1).dropLast)

namespace Cursor

/-- Passes over one given character. -/
def char? (expected : Char) (cur : Cursor) : Option Cursor :=
  match cur.rest with
  | c :: rest => if c == expected then some (cur.pass [c] rest) else none
  | [] => none

/-- Passes over a given word, ignoring the case of ASCII letters. -/
def word? (word : List Char) (cur : Cursor) : Option Cursor :=
  let (front, rest) := cur.rest.splitAt word.length
  if front.map Char.toLower == word then some (cur.pass front rest) else none

/-- Reads the string at the cursor. -/
def quoted? (cur : Cursor) : Option (String × Cursor) :=
  match cur.lexeme? with
  | .ok (some (.quoted text, next)) => some (contents text, next)
  | _ => none

/-- Reads up to the closing parenthesis, and trims what was read. -/
def bareAddress (cur : Cursor) : String × Cursor :=
  let address := cur.rest.takeWhile (· != ')')
  (String.ofList (Text.trim address), cur.pass address (cur.rest.dropWhile (· != ')')))

/-- Reads the address inside `url(…)`: a string, or anything up to the closing parenthesis. -/
def address? (cur : Cursor) : Option (String × Cursor) :=
  if cur.rest.head?.any isQuote then cur.quoted? else some cur.bareAddress

/-- Reads `url(…)` with its address as one token. -/
def url? (cur : Cursor) : Option (Token × Cursor) := do
  let inside ← cur.word? ['u', 'r', 'l', '(']
  let begun ← inside.skipTrivia.toOption
  let (address, ended) ← begun.address?
  let close ← ended.skipTrivia.toOption
  let next ← close.char? ')'
  return (.url address, next)

/-- Reads a number with its unit, if any. -/
def numeric? (cur : Cursor) : Option (Token × Cursor) := do
  let (digits, next) ← cur.numeral?
  let digits := String.ofList digits
  match next.char? '%' with
  | some last => return (.percentage digits, last)
  | none =>
    match next.identifier? with
    | some (unit, last) => return (.dimension digits (lower (String.ofList unit)), last)
    | none => return (.number digits, next)

/-- Reads an identifier, or a function name with its parenthesis. -/
def word (name : List Char) (next : Cursor) : Piece × Cursor :=
  let name := String.ofList (unescape name)
  match next.char? '(' with
  | some inside => (.opening (lower name), inside)
  | none => (.token (.ident name), next)

/-- Reads the piece that begins with the character `c`, neither a quote nor one of `,`, `/`, `#`
and `)`. -/
def otherPiece (cur : Cursor) (c : Char) (rest : List Char) : Piece × Cursor :=
  match cur.url? with
  | some (token, next) => (.token token, next)
  | none =>
    match cur.numeric? with
    | some (token, next) => (.token token, next)
    | none =>
      match cur.identifier? with
      | some (name, next) => next.word name
      | none => (.token (.delim c), cur.pass [c] rest)

/-- Reads the piece at the cursor, if the text has not ended. Its only failure is a string that is
never closed. -/
def piece? (cur : Cursor) : Except Fault (Option (Piece × Cursor)) :=
  match cur.rest with
  | [] => .ok none
  | c :: rest =>
    if isQuote c then
      match cur.quoted? with
      | some (text, next) => .ok (some (.token (.string text), next))
      | none => cur.fail .unterminatedString
    else
      match c with
      | ',' => .ok (some (.token .comma, cur.pass [c] rest))
      | '/' => .ok (some (.token .slash, cur.pass [c] rest))
      | ')' => .ok (some (.closing, cur.pass [c] rest))
      | '#' =>
        let (name, next) := (cur.pass [c] rest).name
        .ok (some (.token (.hash (String.ofList (unescape name))), next))
      | _ => .ok (some (cur.otherPiece c rest))

/-! ### What reading a piece passes over -/

variable {cur next : Cursor}

theorem reads_char? {c : Char} (h : cur.char? c = some next) : Reads cur [c] next := by
  unfold char? at h
  split at h
  · next hrest =>
    split at h <;> cases h
    next heq =>
      rw [beq_iff_eq] at heq
      subst heq
      exact reads_pass hrest
  · cases h

theorem reads_word? {word : List Char} (h : cur.word? word = some next) :
    ∃ taken, Reads cur taken next ∧ taken.length ≤ word.length ∧ taken.map Char.toLower = word := by
  unfold word? at h
  simp only [List.splitAt_eq] at h
  split at h <;> cases h
  next heq =>
    exact ⟨_, reads_pass (List.take_append_drop _ _).symm, by rw [List.length_take]; omega,
      by simpa using heq⟩

theorem reads_skipTrivia? (h : cur.skipTrivia.toOption = some next) :
    ∃ trivia, Reads cur trivia next := by
  cases hskip : cur.skipTrivia with
  | error fault => rw [hskip] at h; cases h
  | ok passed => rw [hskip] at h; cases h; exact reads_skipTrivia hskip

theorem reads_quoted? {text : String} (h : cur.quoted? = some (text, next)) :
    ∃ taken, Reads cur taken next ∧ taken ≠ [] := by
  unfold quoted? at h
  split at h <;> cases h
  next hlexeme => exact ⟨_, reads_lexeme? hlexeme, text_ne_nil_of_lexeme? hlexeme⟩

theorem reads_address? {address : String} (h : cur.address? = some (address, next)) :
    ∃ taken, Reads cur taken next := by
  unfold address? at h
  split at h
  · exact (reads_quoted? h).imp fun _ hreads => hreads.1
  · cases h
    exact ⟨_, reads_pass List.takeWhile_append_dropWhile.symm⟩

/-- An address ends with its closing parenthesis. -/
theorem reads_url? {token : Token} (h : cur.url? = some (token, next)) :
    ∃ front, Reads cur (front ++ [')']) next := by
  simp only [url?, bind, Option.bind_eq_some_iff, pure, Option.some.injEq, Prod.mk.injEq,
    Prod.exists] at h
  obtain ⟨inside, hword, begun, hbegun, address, ended, haddress, close, hclose, last, hlast,
    _, rfl⟩ := h
  obtain ⟨a, ha, -, hlower⟩ := reads_word? hword
  obtain ⟨b, hb⟩ := reads_skipTrivia? hbegun
  obtain ⟨c, hc⟩ := reads_address? haddress
  obtain ⟨d, hd⟩ := reads_skipTrivia? hclose
  exact ⟨_, (((ha.trans hb).trans hc).trans hd).trans (reads_char? hlast)⟩

theorem reads_numeric? {token : Token} (h : cur.numeric? = some (token, next)) :
    ∃ taken, Reads cur taken next ∧ taken ≠ [] := by
  simp only [numeric?, bind, Option.bind_eq_some_iff, Prod.exists] at h
  obtain ⟨digits, after, hnumeral, h⟩ := h
  obtain ⟨hreads, hne⟩ := reads_numeral? hnumeral
  split at h
  · next hpercent =>
    cases h
    exact ⟨_, hreads.trans (reads_char? hpercent), by simp⟩
  · split at h
    · next hunit =>
      cases h
      exact ⟨_, hreads.trans (reads_identifier? hunit).1, by simp [hne]⟩
    · cases h
      exact ⟨_, hreads, hne⟩

theorem reads_word {name : List Char} {piece : Piece} {prev : Cursor} (hreads : Reads prev name cur)
    (hne : name ≠ []) (h : cur.word name = (piece, next)) :
    ∃ taken, Reads prev taken next ∧ taken ≠ [] := by
  unfold word at h
  dsimp only at h
  split at h
  · next hparen =>
    cases h
    exact ⟨_, hreads.trans (reads_char? hparen), by simp⟩
  · cases h
    exact ⟨_, hreads, hne⟩

theorem reads_otherPiece {c : Char} {rest : List Char} {piece : Piece}
    (hrest : cur.rest = c :: rest) (h : cur.otherPiece c rest = (piece, next)) :
    ∃ taken, Reads cur taken next ∧ taken ≠ [] := by
  unfold otherPiece at h
  split at h
  · next hurl =>
    cases h
    obtain ⟨front, hreads⟩ := reads_url? hurl
    exact ⟨_, hreads, by simp⟩
  · split at h
    · next hnumeric => cases h; exact reads_numeric? hnumeric
    · split at h
      · next hname =>
        obtain ⟨hreads, hne⟩ := reads_identifier? hname
        exact reads_word hreads hne h
      · cases h
        exact ⟨_, reads_pass (show cur.rest = [c] ++ rest from hrest), by simp⟩

/-- A piece that was read stands for a non-empty text at the cursor. -/
theorem reads_piece? {piece : Piece} (h : cur.piece? = .ok (some (piece, next))) :
    ∃ taken, Reads cur taken next ∧ taken ≠ [] := by
  unfold piece? fail at h
  split at h
  · cases h
  · next c rest hrest =>
    have hone : Reads cur [c] (cur.pass [c] rest) := reads_pass hrest
    split at h
    · split at h <;> cases h
      next hquoted => exact reads_quoted? hquoted
    · split at h
      · cases h; exact ⟨_, hone, by simp⟩
      · cases h; exact ⟨_, hone, by simp⟩
      · cases h; exact ⟨_, hone, by simp⟩
      · cases h; exact ⟨_, hone.trans (reads_name _), by simp⟩
      · cases hother : cur.otherPiece c rest with
        | mk piece' next' =>
          rw [hother] at h
          cases h
          exact reads_otherPiece hrest hother

theorem length_lt_of_piece? {piece : Piece} (h : cur.piece? = .ok (some (piece, next))) :
    next.rest.length < cur.rest.length := by
  obtain ⟨_, hreads, hne⟩ := reads_piece? h
  exact hreads.length_lt hne

end Cursor

end WebFonts.Css
