import WebFonts.Font.Family
import WebFonts.Rule.Address
import WebFonts.Rule.Overrides
import WebFonts.Rule.Quoted

/-!
# Generated rules

A face is written as one `@font-face` rule with one descriptor on each line. A fallback family is
such a rule as well: it gives a local font another name and, where the measures are known, the room
of the web font that it stands in for.
-/

namespace WebFonts

open Rule (quote relativeTo)

/-- An `@font-face` rule with some descriptors. -/
def Rule.render (descriptors : List (String × String)) : String :=
  let lines := descriptors.map fun (name, value) => s!"  {name}: {value};"
  "@font-face \x7b\n" ++ "\n".intercalate lines ++ "\n\x7d"

/-- A source as it stands in a rule. A stylesheet that lies in a directory names the files of its
site relative to it. -/
def Source.css (directory : Option String) : Source → String
  | url address format tech =>
    let address := directory.elim address (relativeTo · address)
    s!"url({quote address})" ++ format.elim "" (fun format => s!" format({quote format})") ++
      tech.elim "" (fun tech => s!" tech({tech})")
  | installed name => s!"local({quote name})"

namespace Face

/-- The descriptors of a face under the name of its family. -/
def descriptors (family : String) (face : Face) (directory : Option String) :
    List (String × String) :=
  let optional :=
    [("font-weight", face.weight.map Weight.css), ("font-style", face.style),
      ("font-stretch", face.stretch), ("unicode-range", face.unicodeRange),
      ("font-feature-settings", face.featureSettings),
      ("font-variation-settings", face.variationSettings)]
  [("font-family", quote family),
    ("src", ", ".intercalate (face.sources.map (Source.css directory))),
    ("font-display", face.display.getD "swap")] ++
    optional.filterMap fun (name, value) => value.map (name, ·)

/-- The rule of a face under the name of its family. -/
def rule (family : String) (face : Face) (directory : Option String) : String :=
  Rule.render (face.descriptors family directory)

end Face

/-! ### Fallback families -/

/-- The name of the family that a local font makes when it stands in for another family. -/
def fallbackName (family installed : String) : String :=
  s!"{family} Fallback: {installed}"

/-- The rule that gives a local font another name. It is fitted to a web font if the measures of
both are known. -/
def fallbackRule (name installed : String) (web : Option Metrics) : String :=
  let overrides :=
    match web, localMetrics? installed with
    | some web, some own => (Overrides.fit web own).descriptors
    | _, _ => []
  Rule.render ([("font-family", quote name), ("src", s!"local({quote installed})")] ++ overrides)

end WebFonts
