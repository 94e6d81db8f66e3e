import WebFonts.Font.Face
import WebFonts.Font.Generic
import WebFonts.Font.Metrics

/-!
# What is asked about a family, and what is known

A declaration asks for its primary family and passes on what its author listed behind it; the
answer describes the family's faces and the local fonts that can stand in for it.
-/

namespace WebFonts

/-- What a declaration says beside its primary family. -/
structure Request where
  /-- The families that the author listed behind the primary one. -/
  fallbacks : List String
  /-- The generic family that the author named. -/
  generic : Option GenericFamily
deriving Repr, DecidableEq

/-- What is known of a family. -/
structure Family where
  faces : List Face
  /-- Local fonts to derive fallback families from. -/
  fallbacks : List String
  metrics : Option Metrics
deriving Repr

end WebFonts
