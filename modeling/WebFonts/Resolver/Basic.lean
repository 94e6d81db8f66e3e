import WebFonts.Font.Family

/-!
# Looking families up

A resolver answers a request for a family. It may know nothing of the family, refuse to answer, or
break down.
-/

namespace WebFonts

/-- The reasons for which a resolver refuses to answer. -/
inductive ResolveFault where
  | unavailable (reason : String)
  | backend (family reason : String)
  | io (reason : String)
deriving Repr, DecidableEq

/-- The wording under which a refusal is reported. -/
def ResolveFault.message : ResolveFault → String
  | unavailable reason => s!"Font resolver is not available: {reason}"
  | backend family reason => s!"Failed to resolve font family '{family}': {reason}"
  | io reason => s!"I/O error: {reason}"

/-- What comes back for a request. -/
inductive Answer where
  | found (family : Family)
  | unknown
  | refused (fault : ResolveFault)
  /-- The lookup broke down without an answer. -/
  | crashed
deriving Repr

/-- A source of answers to the request for a family. -/
abbrev Resolver := String → Request → Answer

end WebFonts
