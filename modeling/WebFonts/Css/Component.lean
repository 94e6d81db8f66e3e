import WebFonts.Css.Pushdown
import WebFonts.Css.Span
import WebFonts.Css.Token

/-!
# Components of declaration values

A value is a list of components: tokens, and functions whose arguments are components again.
`Component.ofText?` reads a value that stands alone, `Component.readAll` one inside a larger text,
so that the spans are offsets into that text.
-/

namespace WebFonts.Css

/-- A token or a function, with the span that it covers. -/
inductive Component where
  | token (span : Span) (token : Token)
  | function (span : Span) (name : String) (arguments : List Component)
deriving Repr

namespace Component

/-- The span that a component covers. -/
def span : Component → Span
  | token span _ => span
  | function span _ _ => span

/-- A function whose closing parenthesis has not been read, with the components read before it,
the last one first. -/
structure OpenFunction where
  name : String
  start : Nat
  before : List Component

/-- The functions that are open, the innermost first, and the components read since the innermost
one was opened, the last one first. -/
structure State where
  functions : List OpenFunction
  read : List Component

/-- The state behind a piece that stands between two offsets. A parenthesis that closes no function
is a token. -/
def State.push (state : State) (piece : Piece) (start stop : Nat) : State :=
  match piece, state.functions with
  | .token leaf, _ => { state with read := .token ⟨start, stop⟩ leaf :: state.read }
  | .opening name, functions => ⟨⟨name, start, state.read⟩ :: functions, []⟩
  | .closing, [] => { state with read := .token ⟨start, stop⟩ (.delim ')') :: state.read }
  | .closing, inner :: outer =>
    ⟨outer, .function ⟨inner.start, stop⟩ inner.name state.read.reverse :: inner.before⟩

/-- Reads the trivia at the cursor and the piece behind it. -/
def step (state : State) (cur : Cursor) : Except Fault (Progress State (List Component)) :=
  match cur.skipTrivia with
  | .error fault => .error fault
  | .ok cur =>
    match cur.piece? with
    | .error fault => .error fault
    | .ok none =>
      if state.functions.isEmpty then .ok (.done state.read.reverse)
      else cur.fail .missingParenthesis
    | .ok (some (piece, next)) => .ok (.onward (state.push piece cur.offset next.offset) next)

theorem step_shortens {state state' : State} {cur next : Cursor}
    (h : step state cur = .ok (.onward state' next)) : next.rest.length < cur.rest.length := by
  unfold step Cursor.fail at h
  split at h
  · cases h
  · next hskip =>
    have := Cursor.length_le_of_skipTrivia hskip
    split at h
    · cases h
    · split at h <;> cases h
    · next hpiece =>
      cases h
      have := Cursor.length_lt_of_piece? hpiece
      omega

/-- The machine that reads the components of a value. -/
def reader : Pushdown State (List Component) :=
  ⟨step, step_shortens⟩

/-- Reads the components of the text at the cursor. -/
def readAll (cur : Cursor) : Except Fault (List Component) :=
  reader.run ⟨[], []⟩ cur

/-- Reads a value that stands alone. -/
def ofText? (text : String) : Except Fault (List Component) :=
  readAll (.start text.toList)

end Component

end WebFonts.Css
