import WebFonts.Css.Extent
import WebFonts.Css.Node

/-!
# Reading one declaration

A declaration is the text of one statement: a property, a colon, and a value that `!important` may
end. The value of a custom property is kept as text, every other one is read into components.
-/

namespace WebFonts.Css

open Text (size trimEnd trimStart)

namespace Declaration

/-- Reads the property at the start of a statement. A `*` in front belongs to the name. -/
def readProperty (statement : Cursor) : Except Fault (String × Cursor) :=
  let (star, named) :=
    match statement.char? '*' with
    | some named => (['*'], named)
    | none => ([], statement)
  match named.identifier? with
  | some (name, next) =>
    let property := String.ofList (unescape (star ++ name))
    .ok (if isCustomProperty property then property else Text.lower property, next)
  | none => statement.fail .missingProperty

/-- Reads the value that stands at the cursor and reaches to the end of the statement, under a
given property. -/
def readValue (property : String) (cur : Cursor) (text : List Char) : Except Fault Value :=
  let text := trimEnd text
  if isCustomProperty property then
    let kept := trimStart text
    let stop := cur.offset + size text
    .ok (.raw ⟨String.ofList kept, ⟨stop - size kept, stop⟩⟩)
  else .components <$> Component.readAll ⟨cur.offset, text⟩

/-- Reads a statement as a declaration. -/
def ofStatement? (statement : Cursor) : Except Fault Declaration := do
  let (property, next) ← readProperty statement
  let next ← next.skipTrivia
  match next.char? ':' with
  | none => next.fail .missingColon
  | some cur =>
    let (text, important) := cutImportant cur.rest
    let value ← readValue property cur text
    let stop := statement.offset + size (trimEnd statement.rest)
    return ⟨property, value, important, ⟨statement.offset, stop⟩⟩

end Declaration

end WebFonts.Css
