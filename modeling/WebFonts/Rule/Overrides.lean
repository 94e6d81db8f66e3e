import WebFonts.Decimal.Places
import WebFonts.Font.Metrics
import WebFonts.Text.Case

/-!
# Fitting a local font to a web font

A local font takes the room of a web font when its size is adjusted by the ratio of their letter
widths, and its vertical measures are overridden by those of the web font. The measures of a few
local fonts that are widely installed are known.
-/

namespace WebFonts

/-! ### Local fonts -/

/-- The measures of local fonts that are widely installed, by their names in lower case. -/
def localMetrics : List (String × Metrics) :=
  [("arial", ⟨2048, 1854, -434, 67, some 904⟩),
    ("times new roman", ⟨2048, 1825, -443, 87, some 819⟩),
    ("courier new", ⟨2048, 1705, -615, 0, some 1229⟩),
    ("helvetica neue", ⟨1000, 952, -213, 28, some 450⟩),
    ("roboto", ⟨2048, 1900, -500, 0, some 911⟩),
    ("segoe ui", ⟨2048, 2210, -514, 0, some 908⟩),
    ("georgia", ⟨2048, 1878, -449, 0, some 913⟩),
    ("noto sans", ⟨1000, 1069, -293, 0, some 442⟩)]

/-- The measures of a local font, by its name in any case. -/
def localMetrics? (name : String) : Option Metrics :=
  localMetrics.lookup (Text.lower name)

/-! ### Overrides -/

/-- What is overridden of a local font, as ratios. -/
structure Overrides where
  sizeAdjust : Float
  ascent : Float
  descent : Float
  lineGap : Float
deriving Repr

/-- A ratio as a percentage with at most four decimal places. -/
def percent (ratio : Float) : String :=
  Decimal.atMostPlaces 4 (ratio * 100) ++ "%"

namespace Overrides

/-- The factor by which a local font is resized to the letter width of a web font. Without both
widths it is not resized. -/
def sizeFactor (web installed : Metrics) : Float :=
  match web.widthRatio, installed.widthRatio with
  | some wanted, some given => wanted / given
  | _, _ => 1

/-- The overrides that fit a local font to a web font. -/
def fit (web installed : Metrics) : Overrides :=
  let sizeAdjust := sizeFactor web installed
  let em := web.unitsPerEm * sizeAdjust
  { sizeAdjust
    ascent := web.ascent / em
    descent := web.descent.abs / em
    lineGap := web.lineGap / em }

/-- The descriptors that state the overrides. -/
def descriptors (overrides : Overrides) : List (String × String) :=
  [("size-adjust", percent overrides.sizeAdjust),
    ("ascent-override", percent overrides.ascent),
    ("descent-override", percent overrides.descent),
    ("line-gap-override", percent overrides.lineGap)]

end Overrides

end WebFonts
