/-!
# Addresses relative to a directory

An address that starts with exactly one slash names a file below the root of the site. A stylesheet
in a directory of the site reaches it by climbing to the root first, one `../` for each level.
-/

namespace WebFonts.Rule

/-- The path of an address below the root, if it starts with exactly one slash. -/
def rootPath? (address : List Char) : Option (List Char) :=
  match address with
  | '/' :: '/' :: _ => none
  | '/' :: path => some path
  | _ => none

/-- The number of levels below the root behind one more segment of a directory. Climbing above the
root stays there. -/
def descend (depth : Nat) (segment : List Char) : Nat :=
  match segment with
  | [] | ['.'] => depth
  | ['.', '.'] => depth - 1
  | _ => depth + 1

/-- The number of levels between the root and a directory. -/
def depth (directory : List Char) : Nat :=
  (directory.splitOn '/').foldl descend 0

/-- An address as it is written in a stylesheet that lies in a directory. -/
def relativeTo (directory address : String) : String :=
  match rootPath? address.toList with
  | none => address
  | some path =>
    let climb := (List.replicate (depth directory.toList) ['.', '.', '/']).flatten
    String.ofList (climb ++ path)

end WebFonts.Rule
