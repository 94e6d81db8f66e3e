/-!
# ASCII letter case

Keywords, at-rule names and the names of local fonts are compared without regard to the case of
the letters `A` to `Z`. Letters outside ASCII are compared as they are.
-/

namespace WebFonts.Text

/-- The text with the letters `A` to `Z` in lower case. -/
def lower (text : String) : String :=
  text.map Char.toLower

/-- Whether two texts differ at most in the case of ASCII letters. -/
def sameIgnoringCase (a b : String) : Bool :=
  lower a == lower b

theorem sameIgnoringCase_iff {a b : String} :
    sameIgnoringCase a b = true ↔ lower a = lower b := by
  simp [sameIgnoringCase]

end WebFonts.Text
