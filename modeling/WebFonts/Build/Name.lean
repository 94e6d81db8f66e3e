/-!
# Names of modules and assets

A module is a stylesheet by the extension of its name, unless the query behind the name asks for
its text or its address. An asset lies in the directory before the last slash of its name.
-/

namespace WebFonts.Build

/-- The extensions of stylesheets. -/
def extensions : List String :=
  [".css", ".scss", ".sass", ".less", ".styl", ".pcss", ".postcss"]

/-- Whether a parameter of a query asks for the text or the address of a module. -/
def bypasses (parameter : List Char) : Bool :=
  let name := String.ofList (parameter.takeWhile (· != '='))
  name == "raw" || name == "url"

/-- Whether a module is a stylesheet that is to be revised. -/
def isStylesheet (name : String) : Bool :=
  let path := name.toList.takeWhile (· != '?')
  let query := (name.toList.dropWhile (· != '?')).drop 1
  !(query.splitOn '&').any bypasses && extensions.any (·.toList.isSuffixOf path)

/-- Whether an asset is a stylesheet. -/
def isStylesheetAsset (name : String) : Bool :=
  ".css".toList.isSuffixOf name.toList

/-- The directory of an asset. -/
def directory (name : String) : String :=
  String.ofList ((name.toList.reverse.dropWhile (· != '/')).drop 1).reverse

end WebFonts.Build
