import WebFonts.Css.Trivia
import WebFonts.Text.Case

/-!
# How far a stretch of stylesheet text reaches

Preludes, statements and blocks end at certain characters, but not at those inside strings,
comments, escapes or brackets. The functions of this file walk over lexemes to find such an end:
`Cursor.upTo` the first of some stopping characters, `Cursor.block` the brace that closes a block,
and `dropTrailingTrivia` the comments and blanks behind the last meaningful lexeme.
-/

namespace WebFonts.Css

open Text (size)

/-! ### Up to a stopping character -/

/-- The bracket depth behind a lexeme. A closing bracket that matches nothing leaves it at zero. -/
def Lexeme.depthAfter (depth : Nat) : Lexeme → Nat
  | plain c =>
    if c == '(' || c == '[' then depth + 1
    else if c == ')' || c == ']' then depth - 1
    else depth
  | _ => depth

/-- Whether a lexeme is one of the given characters, standing for itself. -/
def Lexeme.isOneOf (stops : List Char) : Lexeme → Bool
  | plain c => stops.contains c
  | _ => false

namespace Cursor

/-- Reads up to the first of `stops` that stands outside strings, comments, escapes and brackets,
or to the end of the text. `depth` brackets are open where the reading begins. -/
def upTo (stops : List Char) (depth : Nat) (cur : Cursor) : Except Fault (List Char × Cursor) :=
  match _h : cur.lexeme? with
  | .error fault => .error fault
  | .ok none => .ok ([], cur)
  | .ok (some (lexeme, next)) =>
    if depth == 0 && lexeme.isOneOf stops then .ok ([], cur)
    else
      match upTo stops (lexeme.depthAfter depth) next with
      | .error fault => .error fault
      | .ok (text, stop) => .ok (lexeme.text ++ text, stop)
termination_by cur.rest.length
decreasing_by exact length_lt_of_lexeme? ‹_›

theorem reads_upTo {stops : List Char} {cur stop : Cursor} {depth : Nat} {text : List Char}
    (h : cur.upTo stops depth = .ok (text, stop)) : Reads cur text stop := by
  fun_induction upTo stops depth cur generalizing text stop with
  | case1 => cases h
  | case2 => cases h; exact .refl _
  | case3 => cases h; exact .refl _
  | case4 => cases h
  | case5 depth cur lexeme next hlexeme _ tail last htail ih =>
    cases h
    exact (reads_lexeme? hlexeme).trans (ih htail)

theorem length_le_of_upTo {stops : List Char} {cur stop : Cursor} {depth : Nat} {text : List Char}
    (h : cur.upTo stops depth = .ok (text, stop)) : stop.rest.length ≤ cur.rest.length :=
  (reads_upTo h).length_le

theorem lexeme?_isOneOf {stops : List Char} {cur next : Cursor} {lexeme : Lexeme}
    (h : cur.lexeme? = .ok (some (lexeme, next))) (hstop : lexeme.isOneOf stops = true) :
    ∃ c rest, cur.rest = c :: rest ∧ c ∈ stops := by
  have hreads := reads_lexeme? h
  cases lexeme <;> simp only [Lexeme.isOneOf, List.contains_iff_mem, Bool.false_eq_true] at hstop
  exact ⟨_, _, hreads.rest_eq, hstop⟩

/-- What is read up to is a stopping character or the end of the text. -/
theorem stop_of_upTo {stops : List Char} {cur stop : Cursor} {depth : Nat} {text : List Char}
    (h : cur.upTo stops depth = .ok (text, stop)) :
    stop.rest = [] ∨ ∃ c rest, stop.rest = c :: rest ∧ c ∈ stops := by
  fun_induction upTo stops depth cur generalizing text stop with
  | case1 => cases h
  | case2 depth cur hlexeme =>
    cases h
    left
    unfold lexeme? fail at hlexeme
    split at hlexeme
    · assumption
    · split at hlexeme <;> cases hlexeme
    · cases hlexeme
    · cases hlexeme
    · split at hlexeme
      · split at hlexeme <;> cases hlexeme
      · cases hlexeme
  | case3 depth cur lexeme next hlexeme hstop =>
    cases h
    simp only [Bool.and_eq_true] at hstop
    exact .inr (lexeme?_isOneOf hlexeme hstop.2)
  | case4 => cases h
  | case5 depth cur lexeme next hlexeme _ tail last htail ih =>
    cases h
    exact ih htail

/-! ### Blocks -/

/-- Reads on until `depth` more blocks are closed than opened. `brace` is the offset of the brace
that is reported when the text ends first. -/
def closeBlock (brace : Nat) (depth : Nat) (cur : Cursor) : Except Fault (List Char × Cursor) :=
  match depth with
  | 0 => .ok ([], cur)
  | outer + 1 =>
    match _h : cur.upTo ['{', '}'] 0 with
    | .error fault => .error fault
    | .ok (text, ⟨offset, c :: rest⟩) =>
      match closeBlock brace (if c == '{' then outer + 2 else outer) ⟨offset + size [c], rest⟩ with
      | .error fault => .error fault
      | .ok (tail, last) => .ok (text ++ c :: tail, last)
    | .ok (_, ⟨_, []⟩) => .error ⟨.unterminatedBlock, brace⟩
termination_by cur.rest.length
decreasing_by exact length_le_of_upTo ‹_›

theorem reads_closeBlock {brace depth : Nat} {cur last : Cursor} {text : List Char}
    (h : cur.closeBlock brace depth = .ok (text, last)) : Reads cur text last := by
  fun_induction closeBlock brace depth cur generalizing text last with
  | case1 => cases h; exact .refl _
  | case2 => cases h
  | case3 => cases h
  | case4 cur outer front offset c rest hfront tail last' htail ih =>
    cases h
    exact (reads_upTo hfront).trans (.trans (s := [c]) ⟨rfl, rfl⟩ (ih htail))
  | case5 => cases h

/-- Reads the block whose opening brace stands at the cursor, its braces included. -/
def block (cur : Cursor) : Except Fault (List Char × Cursor) :=
  match cur.rest with
  | c :: rest => do
    let (text, last) ← closeBlock cur.offset 1 (cur.pass [c] rest)
    return (c :: text, last)
  | [] => cur.fail .unterminatedBlock

theorem reads_block {cur last : Cursor} {text : List Char} (h : cur.block = .ok (text, last)) :
    Reads cur text last ∧ text ≠ [] := by
  unfold block fail at h
  split at h
  · next c rest hrest =>
    simp only [bind, Except.bind, pure, Except.pure] at h
    split at h <;> cases h
    rename_i hclose
    have hopen := reads_pass (show cur.rest = [c] ++ rest from hrest)
    exact ⟨hopen.trans (reads_closeBlock hclose), by simp⟩
  · cases h

end Cursor

/-! ### Trailing trivia -/

/-- The text at the cursor without the comments and blanks behind its last other lexeme. -/
def Cursor.withoutTrailingTrivia (cur : Cursor) : Except Fault (List Char) :=
  match _h : cur.lexeme? with
  | .error fault => .error fault
  | .ok none => .ok []
  | .ok (some (lexeme, next)) =>
    match next.withoutTrailingTrivia with
    | .error fault => .error fault
    | .ok kept => .ok (if kept.isEmpty && lexeme.isTrivia then [] else lexeme.text ++ kept)
termination_by cur.rest.length
decreasing_by exact Cursor.length_lt_of_lexeme? ‹_›

/-- The text without the comments and blanks at its end. A text with an open string or comment is
left as it is. -/
def dropTrailingTrivia (text : List Char) : List Char :=
  match (Cursor.start text).withoutTrailingTrivia with
  | .ok kept => kept
  | .error _ => text

/-- The text before a final `!important` mark, or the whole text, and whether the mark is there.
Comments and blanks may stand behind the mark and between its two parts. -/
def cutImportant (value : List Char) : List Char × Bool :=
  let content := dropTrailingTrivia value
  let (front, keyword) := content.splitAt (content.length - "important".length)
  let marked := dropTrailingTrivia front
  if Text.sameIgnoringCase (String.ofList keyword) "important" && marked.getLast? == some '!' then
    (marked.dropLast, true)
  else (value, false)

end WebFonts.Css
