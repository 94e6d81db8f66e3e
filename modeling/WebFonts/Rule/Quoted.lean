/-!
# Quoted text in generated rules

A text is written as a string between double quotes. A quote or a backslash in the text is written
behind a backslash; everything else stands for itself.
-/

namespace WebFonts.Rule

/-- A character of a text as it stands between quotes. -/
def escape (c : Char) : List Char :=
  if c == '"' || c == '\\' then ['\\', c] else [c]

/-- A text as a string. -/
def quote (text : String) : String :=
  String.ofList ('"' :: text.toList.flatMap escape ++ ['"'])

end WebFonts.Rule
