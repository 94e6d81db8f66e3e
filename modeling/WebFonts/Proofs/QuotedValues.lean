import WebFonts.Proofs.Quoting
import WebFonts.Proofs.Shifting
import WebFonts.Proofs.Values

/-!
# Values that begin with a quoted text

`ofText?_quote_append`: what `Rule.quote` writes in front of a value is read back as one string that
holds the quoted text, and the value behind it as if it stood alone, only further on. The one
exception is a text that holds a line feed, which `quote` leaves as it is: then nothing is read at
all, whatever stands behind.

Faults are part of the statement, so that it is not enough to compare readings: the machine is
followed behind its first token. From there its states are those of reading the rest alone, moved
and with that token below them (`State.behind`), which every step preserves (`step_behind`), hence
every run.
-/

namespace WebFonts.Css.Component

open Text (size)
open Rule (quote)

variable (distance : Nat) (below : List Component)

/-! ### Reading on behind some components -/

/-- The state of a machine that reads the same text `distance` bytes further on, with components
`below` everything that it has read. -/
def behind (distance : Nat) (below : List Component) : List OpenFunction → List Component → State
  | [], read => ⟨[], read.map (shift distance) ++ below⟩
  | inner :: outer, read =>
    let under := behind distance below outer inner.before
    ⟨⟨inner.name, inner.start + distance, under.read⟩ :: under.functions,
      read.map (shift distance)⟩

/-- A state of the machine, moved and with components below it. -/
def State.behind (distance : Nat) (below : List Component) (state : State) : State :=
  Component.behind distance below state.functions state.read

theorem behind_cons (functions : List OpenFunction) (component : Component)
    (read : List Component) :
    behind distance below functions (component :: read) =
      ⟨(behind distance below functions read).functions,
        component.shift distance :: (behind distance below functions read).read⟩ := by
  cases functions <;> rfl

theorem push_behind (state : State) (piece : Piece) (start stop : Nat) :
    (state.behind distance below).push piece (start + distance) (stop + distance) =
      (state.push piece start stop).behind distance below := by
  obtain ⟨functions, read⟩ := state
  cases piece with
  | token leaf => simp only [State.behind, State.push, behind_cons, Component.shift, Span.shift]
  | opening name => rfl
  | closing =>
    cases functions with
    | nil => rfl
    | cons inner outer =>
      have hclose := behind_cons distance below outer
        (.function ⟨inner.start, stop⟩ inner.name read.reverse) inner.before
      simp only [State.behind, behind, State.push, hclose, Component.shift, shiftAll_eq_map,
        List.map_reverse, Span.shift]

theorem step_behind (state : State) (cur : Cursor) :
    step (state.behind distance below) (cur.shift distance) =
      moved distance (Progress.shift distance (State.behind distance below)
        (below.reverse ++ List.map (shift distance) ·)) (step state cur) := by
  unfold step
  rw [Cursor.skipTrivia_shift]
  cases cur.skipTrivia with
  | error fault => rfl
  | ok begun =>
    dsimp only [moved_ok]
    rw [Cursor.piece?_shift]
    rcases begun.piece? with fault | _ | ⟨piece, next⟩
    · rfl
    · obtain ⟨functions, read⟩ := state
      cases functions with
      | nil => simp [State.behind, behind, Progress.shift]
      | cons inner outer => rfl
    · simp [Progress.shift, push_behind]

/-- What is read behind a token is read as if it stood alone, only further on. -/
theorem readAll_of_token {cur next : Cursor} {leaf : Token} (htoken : AtToken cur.rest)
    (h : cur.piece? = .ok (some (.token leaf, next))) :
    readAll cur =
      moved next.offset (.token ⟨cur.offset, next.offset⟩ leaf :: List.map (shift next.offset) ·)
        (readAll (.start next.rest)) := by
  have hrun := Pushdown.run_shift reader
    (step_behind next.offset [.token ⟨cur.offset, next.offset⟩ leaf])
    ⟨[], []⟩ (.start next.rest)
  have hnext : (Cursor.start next.rest).shift next.offset = next := by
    rw [Cursor.start, Cursor.shift_mk, Nat.zero_add]
  rw [hnext] at hrun
  rw [readAll, run_of_piece? htoken h, push_token]
  exact hrun

/-! ### Behind a quoted text -/

/-- No string is read where a line feed stands between the quotes. -/
theorem piece?_quote_of_line_feed {text : String} {cur : Cursor} {rest : List Char}
    (hbreak : '\n' ∈ text.toList) (hrest : cur.rest = (quote text).toList ++ rest) :
    cur.piece? = .error ⟨.unterminatedString, cur.offset⟩ := by
  rw [toList_quote, List.append_assoc, List.cons_append] at hrest
  have hopen := closeQuote?_of_break hbreak (['"'] ++ rest)
  unfold Cursor.piece? Cursor.quoted?
  rw [Cursor.lexeme?_of_cons hrest (by decide) nofun, hopen]
  simp only [hrest]
  rfl

/-- A text with a line feed is not closed by what `quote` writes, whatever stands behind. -/
theorem ofText?_of_line_feed {text : String} (hbreak : '\n' ∈ text.toList) (rest : String) :
    ofText? (quote text ++ rest) = .error ⟨.unterminatedString, 0⟩ := by
  have htoken := @atToken_quote text
  have hpiece (cur : Cursor) := @piece?_quote_of_line_feed text cur rest.toList hbreak
  rw [ofText?, String.toList_append, readAll]
  generalize (quote text).toList = quotation at htoken hpiece ⊢
  have hskip := @Cursor.skipTrivia_of_atToken (.start (quotation ++ rest.toList))
    (htoken rest.toList)
  have hfails := hpiece (.start (quotation ++ rest.toList)) rfl
  refine Pushdown.run_of_error ?_
  simp only [reader, step, hskip, hfails]
  rfl

/-- A quoted text in front of a value is one string, and the value behind it is read as if it stood
alone. A text with a line feed is never closed. -/
theorem ofText?_quote_append (text rest : String) :
    ofText? (quote text ++ rest) =
      if '\n' ∈ text.toList then .error ⟨.unterminatedString, 0⟩
      else
        let width := size (quote text).toList
        moved width (.token ⟨0, width⟩ (.string text) :: List.map (shift width) ·)
          (ofText? rest) := by
  split
  · next hbreak => exact ofText?_of_line_feed hbreak rest
  · next hbreak =>
    have htoken := @atToken_quote text
    have hpiece (cur : Cursor) := @Cursor.piece?_quote text hbreak cur rest.toList
    rw [ofText?, String.toList_append]
    generalize (quote text).toList = quotation at htoken hpiece ⊢
    rw [@readAll_of_token (.start (quotation ++ rest.toList)) _ _ (htoken rest.toList)
      (hpiece _ rfl)]
    simp only [Cursor.pass, Cursor.start, Nat.zero_add, ofText?]

/-- A string can stand for a text with a line feed, and this text is not read back from what `quote`
writes, although the empty text behind it is a value. -/
theorem ofText?_quote_of_line_feed :
    contents "\"x\\a y\"".toList = "x\ny" ∧
      ¬ ∀ text rest components, ofText? rest = .ok components →
        ∃ first others, ofText? (quote text ++ rest) = .ok (.token first (.string text) :: others) ∧
          bareAll others = bareAll components := by
  have hcontents : contents "\"x\\a y\"".toList = "x\ny" := by decide +kernel
  refine ⟨hcontents, fun hread => ?_⟩
  have hempty : ofText? "" = .ok [] := readAll_eq_ok_iff.mpr ⟨_, .nil _ _, rfl⟩
  obtain ⟨first, others, hok, -⟩ := hread "x\ny" "" [] hempty
  rw [ofText?_of_line_feed (by decide)] at hok
  cases hok

end WebFonts.Css.Component
