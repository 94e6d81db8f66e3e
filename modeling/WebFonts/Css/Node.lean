import WebFonts.Css.Component

/-!
# The tree of a stylesheet

A stylesheet is a list of nodes. Rules and at-rules hold nodes of their own; declarations and text
that is kept as it stands do not.
-/

namespace WebFonts.Css

/-- Text that is kept as it stands, with the span that it covers. -/
structure Raw where
  text : String
  span : Span
deriving Repr, DecidableEq

/-- The value of a declaration. -/
inductive Value where
  | components (components : List Component)
  /-- The value of a custom property, which is not divided into components. -/
  | raw (raw : Raw)
deriving Repr

/-- One `property: value` pair. -/
structure Declaration where
  /-- The property, in lower case unless it is a custom one. -/
  property : String
  value : Value
  /-- Whether `!important` ends the declaration. -/
  important : Bool
  span : Span
deriving Repr

/-- Whether a property is a custom one: its name begins with two hyphens. -/
def isCustomProperty (property : String) : Bool :=
  match property.toList with
  | '-' :: '-' :: _ => true
  | _ => false

/-- One node of a stylesheet. -/
inductive Node where
  /-- A selector with its block. -/
  | rule (selector : String) (children : List Node) (span : Span)
  /-- An at-rule, by its name in lower case, with its block if it has one. -/
  | atRule (name prelude : String) (block : Option (List Node)) (span : Span)
  | declaration (declaration : Declaration)
  /-- A nested rule or an at-rule among declarations. -/
  | raw (raw : Raw)
deriving Repr

namespace Node

/-- The span that a node covers. -/
def span : Node → Span
  | rule _ _ span => span
  | atRule _ _ _ span => span
  | declaration inner => inner.span
  | raw text => text.span

/-- Whether a node is an `@font-face` rule. -/
def isFontFace : Node → Bool
  | atRule name _ _ _ => name == "font-face"
  | _ => false

end Node

end WebFonts.Css
