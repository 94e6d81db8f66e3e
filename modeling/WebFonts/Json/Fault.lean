/-!
# What can be wrong with a JSON text

A JSON text that is decoded into a record can fail in three ways, which are told apart by where the
reading stops.
-/

namespace WebFonts.Json

/-- The kinds of failure when a JSON text is decoded. -/
inductive Fault where
  /-- The text is not JSON at some point. -/
  | malformed
  /-- The text ends inside a value. -/
  | truncated
  /-- The text is JSON so far, but not of the expected shape. -/
  | mismatched
deriving Repr, DecidableEq

end WebFonts.Json
