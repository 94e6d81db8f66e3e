import WebFonts.Css.FamilyUse

/-!
# Trees that are changed part by part

`Node.change` keeps the shape of a tree, and changes its spans, its declarations and the nested
rules in it. Names that are spliced in, offsets that are shifted and offsets that are moved by a
function are such changes. One change after another is a change again (`changeIn_changeIn`), and a
changed tree is visited as before (`visits_change`), so that the same declarations can use families
or declare them (`filterMap_using?_change`, `filterMap_naming?_change`).
-/

namespace WebFonts.Css

/-- A change to the spans of a tree, to its declarations and to the nested rules in it. -/
structure Change where
  span : Span → Span
  declaration : Declaration → Declaration
  raw : Raw → Raw

mutual

/-- A node with a change to all its parts. -/
def Node.change (change : Change) : Node → Node
  | .rule selector children span =>
    .rule selector (changeIn change children) (change.span span)
  | .atRule name prelude (some children) span =>
    .atRule name prelude (some (changeIn change children)) (change.span span)
  | .atRule name prelude none span => .atRule name prelude none (change.span span)
  | .declaration declaration => .declaration (change.declaration declaration)
  | .raw raw => .raw (change.raw raw)

/-- Nodes with a change to all their parts. -/
def changeIn (change : Change) : List Node → List Node
  | [] => []
  | node :: nodes => node.change change :: changeIn change nodes

end

/-! ### One change after another -/

section Composition

variable {first second both : Change}

mutual

theorem Node.change_change (hspan : ∀ span, second.span (first.span span) = both.span span)
    (hdeclaration : ∀ declaration,
      second.declaration (first.declaration declaration) = both.declaration declaration)
    (hraw : ∀ raw, second.raw (first.raw raw) = both.raw raw) (node : Node) :
    (node.change first).change second = node.change both := by
  match node with
  | .rule selector children span =>
    rw [Node.change, Node.change, Node.change, hspan, changeIn_changeIn hspan hdeclaration hraw]
  | .atRule name prelude (some children) span =>
    rw [Node.change, Node.change, Node.change, hspan, changeIn_changeIn hspan hdeclaration hraw]
  | .atRule name prelude none span => rw [Node.change, Node.change, Node.change, hspan]
  | .declaration declaration => rw [Node.change, Node.change, Node.change, hdeclaration]
  | .raw raw => rw [Node.change, Node.change, Node.change, hraw]

/-- One change after another is the change that does both to every part. -/
theorem changeIn_changeIn (hspan : ∀ span, second.span (first.span span) = both.span span)
    (hdeclaration : ∀ declaration,
      second.declaration (first.declaration declaration) = both.declaration declaration)
    (hraw : ∀ raw, second.raw (first.raw raw) = both.raw raw) (nodes : List Node) :
    changeIn second (changeIn first nodes) = changeIn both nodes := by
  match nodes with
  | [] => rfl
  | node :: nodes =>
    rw [changeIn, changeIn, changeIn, Node.change_change hspan hdeclaration hraw,
      changeIn_changeIn hspan hdeclaration hraw]

end

end Composition

/-! ### Visits -/

/-- A visit to a changed node. -/
def Visit.change (change : Change) (visit : Visit) : Visit :=
  ⟨visit.node.change change, visit.parent.map (Node.change change)⟩

variable {change : Change}

mutual

theorem Node.visits_change (parent : Option Node) (node : Node) :
    (node.change change).visits (parent.map (Node.change change)) =
      (node.visits parent).map (Visit.change change) := by
  match node with
  | .rule selector children span =>
    have hchildren := visitsIn_changeIn (some (.rule selector children span)) children
    rw [Option.map_some, Node.change] at hchildren
    rw [Node.change, Node.visits, hchildren, Node.visits, List.map_cons, Visit.change, Node.change]
  | .atRule name prelude (some children) span =>
    have hchildren := visitsIn_changeIn (some (.atRule name prelude (some children) span)) children
    rw [Option.map_some, Node.change] at hchildren
    rw [Node.change, Node.visits, hchildren, Node.visits, List.map_cons, Visit.change, Node.change]
  | .atRule name prelude none span => rfl
  | .declaration declaration => rfl
  | .raw raw => rfl

/-- The visits to changed nodes are the visits to the nodes. -/
theorem visitsIn_changeIn (parent : Option Node) (nodes : List Node) :
    visitsIn (parent.map (Node.change change)) (changeIn change nodes) =
      (visitsIn parent nodes).map (Visit.change change) := by
  match nodes with
  | [] => rfl
  | node :: nodes =>
    rw [changeIn, visitsIn, visitsIn, List.map_append, Node.visits_change, visitsIn_changeIn]

end

/-- The visits to a changed tree are the visits to the tree. -/
theorem visits_change (nodes : List Node) :
    visits (changeIn change nodes) = (visits nodes).map (Visit.change change) :=
  visitsIn_changeIn none nodes

theorem Visit.declaration?_change (visit : Visit) :
    (visit.change change).declaration? = visit.declaration?.map change.declaration := by
  obtain ⟨node, parent⟩ := visit
  cases node with
  | atRule name prelude block span => cases block <;> rfl
  | _ => rfl

theorem Node.isFontFace_change (node : Node) :
    (node.change change).isFontFace = node.isFontFace := by
  cases node with
  | atRule name prelude block span => cases block <;> rfl
  | _ => rfl

theorem Visit.insideFontFace_change (visit : Visit) :
    (visit.change change).insideFontFace = visit.insideFontFace := by
  obtain ⟨node, parent⟩ := visit
  cases parent with
  | none => rfl
  | some parent => exact parent.isFontFace_change

section Declarations

variable (hproperty : ∀ declaration, (change.declaration declaration).property =
  declaration.property)

include hproperty

/-- The declarations of a kind are the same, changed, if the kind is told by the property and by
whether the declaration stands in an `@font-face` rule. -/
theorem filterMap_declaration?_change (accepts : Bool → String → Bool) (nodes : List Node) :
    (visits (changeIn change nodes)).filterMap
        (fun visit => visit.declaration?.filter fun declaration =>
          accepts visit.insideFontFace declaration.property) =
      ((visits nodes).filterMap fun visit => visit.declaration?.filter fun declaration =>
        accepts visit.insideFontFace declaration.property).map change.declaration := by
  rw [visits_change, List.filterMap_map, List.map_filterMap]
  congr 1
  funext visit
  rw [Function.comp_apply, Visit.declaration?_change, Visit.insideFontFace_change]
  cases visit.declaration? with
  | none => rfl
  | some declaration =>
    rw [Option.map_some, Option.filter_some, Option.filter_some, hproperty]
    split <;> rfl

/-- The declarations that can use families are the same, changed. -/
theorem filterMap_using?_change (customProperties : Bool) (nodes : List Node) :
    (visits (changeIn change nodes)).filterMap (Visit.using? customProperties) =
      ((visits nodes).filterMap (Visit.using? customProperties)).map change.declaration :=
  filterMap_declaration?_change hproperty
    (fun insideFontFace property => !insideFontFace && namesFamilies customProperties property)
    nodes

/-- The declarations that name the families of `@font-face` rules are the same, changed. -/
theorem filterMap_naming?_change (nodes : List Node) :
    (visits (changeIn change nodes)).filterMap Visit.naming? =
      ((visits nodes).filterMap Visit.naming?).map change.declaration :=
  filterMap_declaration?_change hproperty
    (fun insideFontFace property => insideFontFace && property == "font-family") nodes

end Declarations

end WebFonts.Css
