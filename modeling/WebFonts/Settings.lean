import WebFonts.Font.Codec
import WebFonts.Resolver.Table

/-!
# Settings of a build

Settings are read from JSON. Their table of fallbacks is keyed by the keywords of generic families
in any case; another key is refused.
-/

namespace WebFonts

open Json (Tree Decoder RecordField)

/-- The settings that every revision of a build shares. -/
structure Settings where
  /-- Whether generated rules are kept readable. -/
  dev : Bool := false
  /-- Whether custom properties can use families. -/
  customProperties : Bool := false
  minify : MinifySettings := {}
  /-- Local fonts for fallback families, by the keyword of a generic family. -/
  fallbacks : List (String × List String) :=
    GenericFamily.usual.map fun (generic, fonts) => (generic.keyword, fonts)
deriving Repr, DecidableEq

/-- The reasons for which settings are refused. -/
inductive SettingsFault where
  | json (fault : Json.Fault)
  | unknownGeneric (keyword : String)
  | noResolver
  | missingFile (path : String)
deriving Repr, DecidableEq

/-- The wording under which a refusal is reported. -/
def SettingsFault.message : SettingsFault → String
  | json .malformed => "JSON error: the text is not JSON"
  | json .truncated => "JSON error: the text ends too early"
  | json .mismatched => "JSON error: the value has another shape"
  | unknownGeneric keyword =>
    s!"Configuration error: Unknown generic font family in fallbacks: '{keyword}'"
  | noResolver =>
    "Configuration error: No font resolver has been configured. Use `with_resolver`."
  | missingFile path =>
    s!"I/O error: Failed to read config from '{path}': No such file or directory (os error 2)"

namespace Settings

/-! ### The table of fallbacks -/

/-- An entry of the table with its key read. -/
def readEntry (entry : String × List String) :
    Except SettingsFault (GenericFamily × List String) :=
  match GenericFamily.ofKeyword? entry.1 with
  | some generic => .ok (generic, entry.2)
  | none => .error (.unknownGeneric entry.1)

/-- The table of fallbacks with its keys read, in the order of the keywords. -/
def readFallbacks (settings : Settings) :
    Except SettingsFault (List (GenericFamily × List String)) := do
  let entries ← settings.fallbacks.mapM readEntry
  return entries.mergeSort fun a b => decide (a.1.keyword ≤ b.1.keyword)

/-- Sets the fallbacks of one keyword, which need not be known. -/
def setFallback (keyword : String) (fonts : List String) (settings : Settings) : Settings :=
  let others := settings.fallbacks.filter (·.1 != keyword)
  { settings with fallbacks := others ++ [(keyword, fonts)] }

/-- Sets the fallbacks in a table of families. -/
def configure (settings : Settings) (table : FontTable) : Except SettingsFault FontTable := do
  return table.setAll (← settings.readFallbacks)

/-! ### JSON -/

/-- The fields of settings. -/
def fields : List (RecordField Settings) :=
  [.may "dev" .bool fun dev settings => { settings with dev },
    .may "processCssVariables" .bool fun customProperties settings =>
      { settings with customProperties },
    .may "minify" MinifySettings.decode fun minify settings => { settings with minify },
    .may "fallbacks" (.table (.list .string)) fun fallbacks settings =>
      { settings with fallbacks }]

/-- Decodes settings, with the default for each one that is not given. -/
def decode : Decoder Settings :=
  Json.Record.decode fields {}

/-- Settings as JSON. -/
def encode (settings : Settings) : Tree :=
  .ofMembers [("dev", .ofBool settings.dev),
    ("processCssVariables", .ofBool settings.customProperties),
    ("minify", settings.minify.encode),
    ("fallbacks", .ofMembers (settings.fallbacks.map fun (keyword, fonts) =>
      (keyword, .ofStrings fonts)))]

/-- Reads settings from a text and checks the keys of their fallbacks. -/
def ofText? (text : String) : Except SettingsFault Settings := do
  let settings ← (Decoder.ofText decode text).mapError .json
  let _ ← settings.readFallbacks
  return settings

end Settings

end WebFonts
