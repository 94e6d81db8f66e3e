/-!
# Font metrics

The measures of a font that decide how much room its lines and letters take.
-/

namespace WebFonts

/-- Measures of a font, in units of which `unitsPerEm` make one em. -/
structure Metrics where
  unitsPerEm : Float
  ascent : Float
  descent : Float
  lineGap : Float
  /-- The average width of the lower-case letters, if it is known. -/
  averageWidth : Option Float
deriving Repr

namespace Metrics

/-- The average width in ems, if the font tells it and it can be computed. -/
def widthRatio (metrics : Metrics) : Option Float :=
  match metrics.averageWidth with
  | some width =>
    if 0 < width ∧ 0 < metrics.unitsPerEm then some (width / metrics.unitsPerEm) else none
  | none => none

end Metrics

end WebFonts
