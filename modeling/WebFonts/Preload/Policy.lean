import WebFonts.Font.Face

/-!
# Preload policies

A policy decides by the name of a family and its first face whether that face is to be preloaded.
-/

namespace WebFonts

/-- A decision on the first face of a family. -/
abbrev PreloadPolicy := String → Face → Bool

/-- The policy that preloads nothing. -/
def PreloadPolicy.never : PreloadPolicy :=
  fun _ _ => false

end WebFonts
