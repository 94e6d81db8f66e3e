/-!
# What can be wrong with a stylesheet

A text is refused for one of nine causes, each at one byte offset. `Fault.message` is the wording
under which a fault is reported.
-/

namespace WebFonts.Css

/-- The reasons to refuse a stylesheet or a declaration value. -/
inductive Cause where
  /-- A quote opens a string that the line or the text ends before it is closed. -/
  | unterminatedString
  /-- `/*` without a later `*/`. -/
  | unterminatedComment
  /-- `{` without its `}`. -/
  | unterminatedBlock
  /-- `}` outside every block. -/
  | strayBrace
  /-- A declaration that does not begin with a property name. -/
  | missingProperty
  /-- A property name that no colon follows. -/
  | missingColon
  /-- `@` that no name follows. -/
  | missingAtName
  /-- A selector that no block follows. -/
  | missingBlock
  /-- A function whose arguments are not closed. -/
  | missingParenthesis
deriving Repr, DecidableEq

/-- A cause and the byte offset that it points at, measured in the text that was read. -/
structure Fault where
  cause : Cause
  offset : Nat
deriving Repr, DecidableEq

/-- The wording under which a fault is reported. -/
def Fault.message (fault : Fault) : String :=
  match fault.cause with
  | .unterminatedString => s!"Unterminated string starting at byte {fault.offset}"
  | .unterminatedComment => s!"Unterminated comment starting at byte {fault.offset}"
  | .unterminatedBlock => s!"Unterminated block starting at byte {fault.offset}"
  | .strayBrace => s!"Unexpected '\x7d' at byte {fault.offset}"
  | .missingProperty =>
    s!"Invalid declaration at byte {fault.offset}: expected a property name"
  | .missingColon =>
    s!"Invalid declaration at byte {fault.offset}: expected ':' after property name"
  | .missingAtName => s!"Parse error at byte {fault.offset}: expected at-rule name"
  | .missingBlock => s!"Parse error at byte {fault.offset}: expected '\x7b' after selector"
  | .missingParenthesis => s!"Parse error at byte {fault.offset}: expected ')'"

end WebFonts.Css
