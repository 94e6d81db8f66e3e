/-!
# Minifiers

Generated rules can be handed to a minifier. What it is asked to do is a `MinifySettings`. It may
fail, and the rule then stays as it was.
-/

namespace WebFonts

/-- The characters that minified text may hold. -/
inductive Charset where
  | utf8
  /-- Every character outside ASCII is to be escaped. -/
  | ascii
deriving Repr, DecidableEq

namespace Charset

/-- The name of a character set. -/
def name : Charset → String
  | utf8 => "utf8"
  | ascii => "ascii"

/-- The character set of a name. -/
def ofName? (name : String) : Option Charset :=
  [utf8, ascii].find? (·.name == name)

end Charset

/-- What a minifier is asked to do. -/
structure MinifySettings where
  charset : Charset := .utf8
  /-- Queries that describe the browsers to support. -/
  targets : List String := []
  /-- Whether names may be shortened. -/
  identifiers : Bool := true
  /-- Whether constructs may be replaced by shorter ones. -/
  constructs : Bool := true
  /-- Whether blanks may be dropped. -/
  whitespace : Bool := true
deriving Repr, DecidableEq

/-- A minifier. Failing is `none`. -/
abbrev Minifier := MinifySettings → String → Option String

/-- The minifier that changes nothing. -/
def Minifier.passthrough : Minifier :=
  fun _ css => some css

end WebFonts
