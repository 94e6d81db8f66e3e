import WebFonts.Css.Lexeme

/-!
# Trivia between tokens

Spaces, tabs, carriage returns, line feeds and comments may stand between any two tokens.
`Cursor.skipTrivia` passes over all of them; its only failure is a comment that is never closed.
-/

namespace WebFonts.Css.Cursor

open Text (size)

/-- Reads one space, tab, line break or comment, and gives the cursor behind it. -/
def separator? (cur : Cursor) : Except Fault (Option Cursor) :=
  match cur.rest with
  | '/' :: '*' :: rest =>
    match closeComment? rest with
    | some (inside, after) => .ok (some (cur.pass ('/' :: '*' :: inside) after))
    | none => cur.fail .unterminatedComment
  | c :: rest => .ok (if c.isWhitespace then some (cur.pass [c] rest) else none)
  | [] => .ok none

theorem reads_separator? {cur next : Cursor} (h : cur.separator? = .ok (some next)) :
    ∃ separator, Reads cur separator next ∧ separator ≠ [] := by
  unfold separator? fail at h
  split at h
  · rename_i hrest
    split at h <;> cases h
    rename_i hclose
    exact ⟨_, reads_pass (by simp [hrest, append_of_closeComment? hclose]), by simp⟩
  · rename_i hrest
    split at h <;> cases h
    exact ⟨_, reads_pass hrest, by simp⟩
  · cases h

theorem length_lt_of_separator? {cur next : Cursor} (h : cur.separator? = .ok (some next)) :
    next.rest.length < cur.rest.length := by
  obtain ⟨_, hreads, hne⟩ := reads_separator? h
  exact hreads.length_lt hne

/-- Passes over the spaces, tabs, line breaks and comments at the cursor. -/
def skipTrivia (cur : Cursor) : Except Fault Cursor :=
  match _h : cur.separator? with
  | .error fault => .error fault
  | .ok none => .ok cur
  | .ok (some next) => skipTrivia next
termination_by cur.rest.length
decreasing_by exact length_lt_of_separator? ‹_›

/-- Skipping trivia passes over some text and loses nothing. -/
theorem reads_skipTrivia {cur next : Cursor} (h : cur.skipTrivia = .ok next) :
    ∃ trivia, Reads cur trivia next := by
  fun_induction skipTrivia cur with
  | case1 => cases h
  | case2 => cases h; exact ⟨[], .refl _⟩
  | case3 cur between hsep ih =>
    obtain ⟨separator, hfirst, _⟩ := reads_separator? hsep
    obtain ⟨trivia, hreads⟩ := ih h
    exact ⟨separator ++ trivia, hfirst.trans hreads⟩

theorem length_le_of_skipTrivia {cur next : Cursor} (h : cur.skipTrivia = .ok next) :
    next.rest.length ≤ cur.rest.length :=
  (reads_skipTrivia h).elim fun _ hreads => hreads.length_le

end WebFonts.Css.Cursor
