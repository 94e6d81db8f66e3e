import WebFonts.Decimal.Shortest
import WebFonts.Font.Family
import WebFonts.Json.Record
import WebFonts.Minifier

/-!
# Fonts as JSON

How sources, weights, faces, metrics, requests, families and minifier settings are written as JSON,
and read back. A source or a weight has several forms that no field tells apart, so its whole text
is read first and the forms are tried in turn.
-/

namespace WebFonts

open Json (Tree Decoder RecordField)

/-- The number of containers that may be nested in each other around a value that is read in full
before its shape is known. -/
def maxNesting : Nat :=
  127

/-! ### Trees of values -/

namespace Json.Tree

/-- A string. -/
def ofString (text : String) : Tree :=
  string (.ofValue text)

/-- A truth value. -/
def ofBool (value : Bool) : Tree :=
  bool (.ok value)

/-- An array. -/
def ofList (items : List Tree) : Tree :=
  array items .closed

/-- An array of strings. -/
def ofStrings (texts : List String) : Tree :=
  ofList (texts.map ofString)

/-- An object. -/
def ofMembers (members : List (String × Tree)) : Tree :=
  object (members.map fun (name, value) => (ofString name, value)) .closed

/-- The member of a string that may be absent. -/
def memberOf? (name : String) (text : Option String) : List (String × Tree) :=
  text.toList.map fun text => (name, ofString text)

end Json.Tree

/-! ### Keywords -/

namespace GenericFamily

/-- Decodes a generic family by its keyword in lower case. -/
def decode : Decoder GenericFamily :=
  .keyword ofLowerKeyword?

/-- A generic family as JSON. -/
def encode (generic : GenericFamily) : Tree :=
  .ofString generic.keyword

end GenericFamily

/-! ### Sources -/

namespace Source

/-- The fields of a remote source, whose record is its address, format and technology. -/
def urlFields : List (RecordField (String × Option String × Option String)) :=
  [.must "url" .string fun address source => (address, source.2),
    .may "format" (.optional .string) fun format source => (source.1, format, source.2.2),
    .may "tech" (.optional .string) fun tech source => (source.1, source.2.1, tech)]

/-- Decodes a remote source. -/
def decodeUrl : Decoder Source := fun tree => do
  let (address, format, tech) ← Json.Record.ofObject urlFields ("", none, none) tree
  return .url address format tech

/-- Decodes an installed font. -/
def decodeInstalled : Decoder Source := fun tree =>
  .installed <$> Json.Record.ofObject [.must "name" .string fun name _ => name] "" tree

/-- Decodes a source inside a number of containers. -/
def decode (depth : Nat) : Decoder Source := fun tree => do
  tree.settle (maxNesting - depth)
  match decodeUrl tree, decodeInstalled tree with
  | .ok source, _ => return source
  | .error _, .ok source => return source
  | .error _, .error _ => .error .mismatched

/-- A source as JSON. -/
def encode : Source → Tree
  | url address format tech =>
    .ofMembers ([("url", .ofString address)] ++ Tree.memberOf? "format" format ++
      Tree.memberOf? "tech" tech)
  | installed name => .ofMembers [("name", .ofString name)]

end Source

/-! ### Weights -/

namespace Weight

/-- Decodes one bound of a weight: a string, or a number that is taken by its shortest text. -/
def decodeBound : Decoder String
  | .number leaf => Decimal.shortestText <$> Decoder.float (.number leaf)
  | tree => Decoder.string tree

/-- Decodes a weight inside a number of containers. -/
def decode (depth : Nat) : Decoder Weight := fun tree => do
  tree.settle (maxNesting - depth)
  match tree with
  | .array [least, greatest] _ => return .range (← decodeBound least) (← decodeBound greatest)
  | tree => .single <$> decodeBound tree

/-- A weight as JSON. -/
def encode : Weight → Tree
  | single weight => .ofString weight
  | range least greatest => .ofStrings [least, greatest]

end Weight

/-! ### Faces -/

namespace Face

/-- The fields of a face inside a number of containers. -/
def fields (depth : Nat) : List (RecordField Face) :=
  [.must "src" (.list (Source.decode (depth + 2))) fun sources face => { face with sources },
    .may "display" (.optional .string) fun display face => { face with display },
    .may "weight" (.optional (Weight.decode (depth + 1))) fun weight face => { face with weight },
    .may "style" (.optional .string) fun style face => { face with style },
    .may "stretch" (.optional .string) fun stretch face => { face with stretch },
    .may "unicodeRange" (.optional .string) fun unicodeRange face => { face with unicodeRange },
    .may "featureSettings" (.optional .string) fun featureSettings face =>
      { face with featureSettings },
    .may "variationSettings" (.optional .string) fun variationSettings face =>
      { face with variationSettings }]

/-- Decodes a face inside a number of containers. -/
def decode (depth : Nat) : Decoder Face :=
  Json.Record.decode (fields depth) (.ofSources [])

/-- A face as JSON. -/
def encode (face : Face) : Tree :=
  .ofMembers ([("src", .ofList (face.sources.map Source.encode))] ++
    Tree.memberOf? "display" face.display ++
    (face.weight.toList.map fun weight => ("weight", weight.encode)) ++
    Tree.memberOf? "style" face.style ++
    Tree.memberOf? "stretch" face.stretch ++
    Tree.memberOf? "unicodeRange" face.unicodeRange ++
    Tree.memberOf? "featureSettings" face.featureSettings ++
    Tree.memberOf? "variationSettings" face.variationSettings)

end Face

/-! ### Metrics, requests and families -/

namespace Metrics

/-- The fields of metrics. -/
def fields : List (RecordField Metrics) :=
  [.must "unitsPerEm" .float fun unitsPerEm metrics => { metrics with unitsPerEm },
    .must "ascent" .float fun ascent metrics => { metrics with ascent },
    .must "descent" .float fun descent metrics => { metrics with descent },
    .may "lineGap" .float fun lineGap metrics => { metrics with lineGap },
    .may "xWidthAvg" (.optional .float) fun averageWidth metrics => { metrics with averageWidth }]

/-- Decodes metrics. The line gap is zero if it is not given. -/
def decode : Decoder Metrics :=
  Json.Record.decode fields ⟨0, 0, 0, 0, none⟩

end Metrics

namespace Request

/-- The fields of a request. -/
def fields : List (RecordField Request) :=
  [.may "fallbacks" (.list .string) fun fallbacks request => { request with fallbacks },
    .may "generic" (.optional GenericFamily.decode) fun generic request =>
      { request with generic }]

/-- Decodes a request. -/
def decode : Decoder Request :=
  Json.Record.decode fields ⟨[], none⟩

/-- A request as JSON. -/
def encode (request : Request) : Tree :=
  .ofMembers ([("fallbacks", .ofStrings request.fallbacks)] ++
    request.generic.toList.map fun generic => ("generic", generic.encode))

end Request

namespace Family

/-- The fields of a family. -/
def fields : List (RecordField Family) :=
  [.must "fonts" (.list (Face.decode 2)) fun faces family => { family with faces },
    .may "fallbacks" (.list .string) fun fallbacks family => { family with fallbacks },
    .may "metrics" (.optional Metrics.decode) fun metrics family => { family with metrics }]

/-- Decodes a family. -/
def decode : Decoder Family :=
  Json.Record.decode fields ⟨[], [], none⟩

end Family

/-! ### Minifier settings -/

namespace MinifySettings

/-- The fields of minifier settings. -/
def fields : List (RecordField MinifySettings) :=
  [.may "charset" (.keyword Charset.ofName?) fun charset settings => { settings with charset },
    .may "targets" (.list .string) fun targets settings => { settings with targets },
    .may "minifyIdentifiers" .bool fun identifiers settings => { settings with identifiers },
    .may "minifySyntax" .bool fun constructs settings => { settings with constructs },
    .may "minifyWhitespace" .bool fun whitespace settings => { settings with whitespace }]

/-- Decodes minifier settings, with the default for each one that is not given. -/
def decode : Decoder MinifySettings :=
  Json.Record.decode fields {}

/-- Minifier settings as JSON. -/
def encode (settings : MinifySettings) : Tree :=
  .ofMembers [("charset", .ofString settings.charset.name),
    ("targets", .ofStrings settings.targets),
    ("minifyIdentifiers", .ofBool settings.identifiers),
    ("minifySyntax", .ofBool settings.constructs),
    ("minifyWhitespace", .ofBool settings.whitespace)]

end MinifySettings

end WebFonts
