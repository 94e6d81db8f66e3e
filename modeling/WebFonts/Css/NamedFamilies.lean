import WebFonts.Css.Node
import WebFonts.Font.Family

/-!
# The families that a declaration names

The value of `font-family` is a list of entries with commas between them. A string is the name of a
family, and so are the words of an entry taken together; generic families and the keywords that
stand for another value are no names. The `font` shorthand holds such a list behind the font size.
-/

namespace WebFonts.Css

open Text (sameIgnoringCase)

/-- The families named by a declaration. -/
structure NamedFamilies where
  /-- The names in the order of the declaration. -/
  names : List String
  /-- The last generic family. -/
  generic : Option GenericFamily
  /-- The byte offset just behind the first name. -/
  firstStop : Option Nat
deriving Repr, DecidableEq

namespace NamedFamilies

/-- The first family, which the declaration asks for. -/
def primary (families : NamedFamilies) : Option String :=
  families.names.head?

/-- What the declaration says beside its first family. -/
def request (families : NamedFamilies) : Request :=
  ⟨families.names.drop 1, families.generic⟩

/-! ### Entries -/

/-- The keywords that every property accepts. -/
def wideKeywords : List String :=
  ["inherit", "initial", "unset", "revert", "revert-layer"]

/-- The generic family that a component names. -/
def generic? : Component → Option GenericFamily
  | .token _ (.ident name) => GenericFamily.ofKeyword? name
  | _ => none

/-- A word of a family name, with its end. -/
def word? : Component → Option (String × Nat)
  | .token span (.ident name) =>
    if (GenericFamily.ofKeyword? name).isSome || wideKeywords.any (sameIgnoringCase · name) then
      none
    else some (name, span.stop)
  | _ => none

/-- A string, with its end. -/
def string? : Component → Option (String × Nat)
  | .token span (.string text) => some (text, span.stop)
  | _ => none

/-- Whether a component is a comma. -/
def isComma : Component → Bool
  | .token _ .comma => true
  | _ => false

/-- The name that the words of an entry make, with the end of the last one. -/
def joinedWords? (entry : List Component) : Option (String × Nat) :=
  let words := entry.filterMap word?
  words.getLast?.map fun (_, stop) => (" ".intercalate (words.map (·.1)), stop)

/-- The names in an entry, each with its end: its strings, and then its words as one name. -/
def namesIn (entry : List Component) : List (String × Nat) :=
  entry.filterMap string? ++ (joinedWords? entry).toList

/-- The families of a `font-family` value. -/
def ofComponents (components : List Component) : NamedFamilies :=
  let names := (components.splitOnP isComma).flatMap namesIn
  { names := names.map (·.1)
    generic := (components.filterMap generic?).getLast?
    firstStop := names.head?.map (·.2) }

/-! ### The shorthand -/

/-- The keywords for a font size. -/
def sizeKeywords : List String :=
  ["xx-small", "x-small", "small", "medium", "large", "x-large", "xx-large", "xxx-large", "larger",
    "smaller", "math"]

/-- Whether a component can be a font size. -/
def isSize : Component → Bool
  | .token _ (.dimension _ _) => true
  | .token _ (.percentage _) => true
  | .token _ (.ident name) => sizeKeywords.any (sameIgnoringCase · name)
  | _ => false

/-- The components behind the first font size, and behind the line height if a slash follows. There
are none if there is no font size. -/
def behindSize (components : List Component) : List Component :=
  match components.dropWhile (!isSize ·) with
  | _ :: .token _ .slash :: rest => rest.drop 1
  | _ :: rest => rest
  | [] => []

/-! ### Declarations -/

/-- The families of the value of a property. -/
def ofValue (property : String) (components : List Component) : NamedFamilies :=
  ofComponents (if property == "font" then behindSize components else components)

/-- The families that a declaration names. A value that is kept as raw text is divided into
components first; offsets are then measured in that text, so that no end is given. -/
def ofDeclaration? (declaration : Declaration) : Except Fault NamedFamilies :=
  match declaration.value with
  | .components components => .ok (ofValue declaration.property components)
  | .raw raw => do
    let components ← Component.ofText? raw.text
    return { ofValue declaration.property components with firstStop := none }

end NamedFamilies

end WebFonts.Css
