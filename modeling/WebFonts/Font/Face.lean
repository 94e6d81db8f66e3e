/-!
# Font faces

A face is what one `@font-face` rule describes: where the font is found, and which weights, styles
and characters it serves.
-/

namespace WebFonts

/-- One place where a face can be found. -/
inductive Source where
  | url (address : String) (format tech : Option String)
  /-- A font that is installed under a name. -/
  | installed (name : String)
deriving Repr, DecidableEq

/-- The address of a remote source. -/
def Source.address? : Source → Option String
  | url address _ _ => some address
  | installed _ => none

/-- The weights that a face serves. -/
inductive Weight where
  | single (weight : String)
  | range (least greatest : String)
deriving Repr, DecidableEq

/-- A weight as it is written in a stylesheet. -/
def Weight.css : Weight → String
  | single weight => weight
  | range least greatest => s!"{least} {greatest}"

/-- A face with the descriptors of its rule. -/
structure Face where
  sources : List Source
  display : Option String
  weight : Option Weight
  style : Option String
  stretch : Option String
  unicodeRange : Option String
  featureSettings : Option String
  variationSettings : Option String
deriving Repr, DecidableEq

namespace Face

/-- The face that is found in some places and described no further. -/
def ofSources (sources : List Source) : Face :=
  ⟨sources, none, none, none, none, none, none, none⟩

/-- The address of the first remote source. -/
def firstAddress? (face : Face) : Option String :=
  face.sources.findSome? Source.address?

end Face

end WebFonts
