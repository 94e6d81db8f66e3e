import WebFonts.Minifier
import WebFonts.Preload.Policy

/-!
# How a stylesheet is revised

The options of one revision, and the tools that every revision uses.
-/

namespace WebFonts

/-- The options of one revision. -/
structure Options where
  /-- The asset to which preloaded addresses belong. -/
  asset : String
  /-- Whether generated rules are kept readable, each on lines of its own. -/
  dev : Bool
  /-- Whether custom properties can use families. -/
  customProperties : Bool
  /-- The directory of the stylesheet, if generated addresses are to be relative to it. -/
  directory : Option String
  /-- What the minifier is asked to do, if it is to be asked. -/
  minify : Option MinifySettings
deriving Repr, DecidableEq

/-- The tools that every revision uses. -/
structure Tools where
  minifier : Minifier
  preload : PreloadPolicy

/-- A generated rule as it is inserted. Without a minifier to ask, or if it fails, the rule stays
as it is. -/
def Tools.finish (tools : Tools) (options : Options) (rule : String) : String :=
  if options.dev then rule ++ "\n"
  else
    match options.minify with
    | none => rule
    | some settings => (tools.minifier settings rule).getD rule

end WebFonts
