import Std.Data.ExtTreeSet
import WebFonts.Css.NamedFamilies
import WebFonts.Css.Visit

/-!
# The families that a stylesheet declares and uses

A stylesheet declares the families of its `@font-face` rules. A `FamilyUse` is a declaration outside
such a rule whose first family the stylesheet does not declare, so that it has to be looked up.
-/

namespace WebFonts.Css

/-- The names of families, without order. -/
abbrev Names := Std.ExtTreeSet String

/-! ### Declared families -/

/-- The declaration that a visit meets. -/
def Visit.declaration? (visit : Visit) : Option Declaration :=
  match visit.node with
  | .declaration declaration => some declaration
  | _ => none

/-- The declaration that a visit meets, if it names the family of an `@font-face` rule. -/
def Visit.naming? (visit : Visit) : Option Declaration :=
  visit.declaration?.filter fun declaration =>
    visit.insideFontFace && declaration.property == "font-family"

/-- The families that a stylesheet declares. -/
def declaredNames (sheet : List Node) : Except Fault Names := do
  let lists ← ((visits sheet).filterMap Visit.naming?).mapM NamedFamilies.ofDeclaration?
  return .ofList (lists.flatMap (·.names))

/-! ### Uses -/

/-- A declaration whose first family has to be looked up. -/
structure FamilyUse where
  family : String
  request : Request
  /-- The byte offset at which names can be inserted behind the family, if it is known. -/
  spliceAt : Option Nat
deriving Repr, DecidableEq

/-- Whether a property can name families. Custom properties count on request. -/
def namesFamilies (customProperties : Bool) (property : String) : Bool :=
  property == "font-family" || property == "font" ||
    (customProperties && isCustomProperty property)

/-- The declaration that a visit meets, if it can use a family. -/
def Visit.using? (customProperties : Bool) (visit : Visit) : Option Declaration :=
  visit.declaration?.filter fun declaration =>
    !visit.insideFontFace && namesFamilies customProperties declaration.property

/-- The use that named families make, unless the first of them is declared. -/
def NamedFamilies.use? (declared : Names) (families : NamedFamilies) : Option FamilyUse := do
  let family ← families.primary
  if declared.contains family then none
  else some ⟨family, families.request, families.firstStop⟩

/-- The uses in a stylesheet, in document order. -/
def familyUses (sheet : List Node) (declared : Names) (customProperties : Bool) :
    Except Fault (List FamilyUse) := do
  let lists ← ((visits sheet).filterMap (Visit.using? customProperties)).mapM
    NamedFamilies.ofDeclaration?
  return lists.filterMap (NamedFamilies.use? declared)

end WebFonts.Css
