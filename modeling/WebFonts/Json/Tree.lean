import WebFonts.Json.Numeral
import WebFonts.Json.Quoted

/-!
# JSON texts as trees

A JSON text is read into a `Tree` that also tells where the text stops being JSON: the reader never
fails, and the decoder that comes to such a place reports it. So whichever comes first in the text
is reported, a value of the wrong shape or a text that is not JSON.
-/

namespace WebFonts.Json

/-- How an array or an object ends. -/
inductive Ending where
  | closed
  /-- The text breaks off, or something else stands where a comma or the closing bracket should. -/
  | broken (fault : Fault)
deriving Repr

/-- A value of a JSON text, or what stands in its place. -/
inductive Tree where
  /-- The end of the text. -/
  | missing
  /-- Something that begins no value. -/
  | junk
  /-- A word that begins like `null`. -/
  | null (read : Except Fault Unit)
  /-- A word that begins like `true` or `false`. -/
  | bool (read : Except Fault Bool)
  | number (leaf : Leaf Numeral)
  | string (leaf : Leaf String)
  | array (items : List Tree) (ending : Ending)
  /-- Keys and values in the order of the text. Only a string is a key; a tree of another form
  stands for what is found in the place of one. -/
  | object (members : List (Tree × Tree)) (ending : Ending)
deriving Repr

/-- A whole text: its value, and whether anything stands behind it. -/
structure Document where
  root : Tree
  trailing : Bool
deriving Repr

end WebFonts.Json
