import WebFonts.Proofs.Changing
import WebFonts.Proofs.Values

/-!
# A stylesheet with names spliced in

`Node.splice` is a node with names listed behind the components that end at certain offsets. Its
spans are dropped, since they belong to the text before the insertions. A node without spans is the
case in which no names are listed (`Node.bare`).

A splice changes the parts of a stylesheet and keeps its shape (`spliceIn_eq_changeIn`), so that the
same declarations can use families (`filterMap_using?_splice`) or declare them
(`filterMap_naming?_splice`).
-/

namespace WebFonts.Css

/-! ### Components -/

namespace Component

/-- The components that continue a list of families by some names. -/
def listed (names : List String) : List Component :=
  names.flatMap fun name => [.token ⟨0, 0⟩ .comma, .token ⟨0, 0⟩ (.string name)]

/-- Components without spans, with the names for the offset of its end behind each of them. -/
def splice (names : Nat → List String) (components : List Component) : List Component :=
  components.flatMap fun component => component.bare :: listed (names component.span.stop)

variable {names : Nat → List String}

theorem splice_append (front back : List Component) :
    splice names (front ++ back) = splice names front ++ splice names back :=
  List.flatMap_append

/-- Where no names are listed, only the spans are dropped. -/
theorem splice_of_nil {components : List Component}
    (h : ∀ component ∈ components, names component.span.stop = []) :
    splice names components = bareAll components := by
  induction components with
  | nil => rfl
  | cons component components ih =>
    have hothers := ih fun other hmem => h other (List.mem_cons_of_mem _ hmem)
    unfold splice at hothers ⊢
    rw [List.flatMap_cons, hothers, h component (List.mem_cons_self ..)]
    rfl

/-- Where the names are listed behind one component only. -/
theorem splice_of_one {front back : List Component} {component : Component}
    (h : ∀ other ∈ front ++ back, names other.span.stop = []) :
    splice names (front ++ component :: back) =
      bareAll (front ++ [component]) ++ listed (names component.span.stop) ++ bareAll back := by
  have hfront := splice_of_nil fun other hmem => h other (List.mem_append_left back hmem)
  have hback := splice_of_nil fun other hmem => h other (List.mem_append_right front hmem)
  have hone : splice names [component] = component.bare :: listed (names component.span.stop) :=
    List.flatMap_singleton ..
  have hcons : splice names (component :: back) = splice names [component] ++ splice names back :=
    splice_append [_] back
  rw [splice_append, hcons, hfront, hback, hone, bareAll_append]
  simp [bareAll]

end Component

/-! ### Nodes -/

/-- Raw text without its span. -/
def Raw.bare (raw : Raw) : Raw :=
  ⟨raw.text, ⟨0, 0⟩⟩

/-- A value with names listed behind the components that end at certain offsets. -/
def Value.splice (names : Nat → List String) : Value → Value
  | .components all => .components (Component.splice names all)
  | .raw text => .raw text.bare

/-- A declaration with names listed in its value. -/
def Declaration.splice (names : Nat → List String) (declaration : Declaration) : Declaration :=
  ⟨declaration.property, declaration.value.splice names, declaration.important, ⟨0, 0⟩⟩

mutual

/-- A node with names listed in its declarations. -/
def Node.splice (names : Nat → List String) : Node → Node
  | .rule selector children _ => .rule selector (spliceIn names children) ⟨0, 0⟩
  | .atRule name prelude (some children) _ =>
    .atRule name prelude (some (spliceIn names children)) ⟨0, 0⟩
  | .atRule name prelude none _ => .atRule name prelude none ⟨0, 0⟩
  | .declaration declaration => .declaration (declaration.splice names)
  | .raw raw => .raw raw.bare

/-- Nodes with names listed in their declarations. -/
def spliceIn (names : Nat → List String) : List Node → List Node
  | [] => []
  | node :: nodes => node.splice names :: spliceIn names nodes

end

/-- A value without spans. -/
def Value.bare (value : Value) : Value :=
  value.splice fun _ => []

/-- A declaration without spans. -/
def Declaration.bare (declaration : Declaration) : Declaration :=
  declaration.splice fun _ => []

/-- A node without spans. -/
def Node.bare (node : Node) : Node :=
  node.splice fun _ => []

/-- Nodes without spans. -/
def bareIn (nodes : List Node) : List Node :=
  spliceIn (fun _ => []) nodes

variable {names : Nat → List String}

theorem Value.bare_components (components : List Component) :
    (Value.components components).bare = .components (Component.bareAll components) :=
  congrArg Value.components (Component.splice_of_nil fun _ _ => rfl)

/-- Where no names are listed, only the spans are dropped. -/
theorem Value.splice_of_nil {value : Value}
    (h : ∀ components, value = .components components → ∀ component ∈ components,
      names component.span.stop = []) :
    value.splice names = value.bare := by
  cases value with
  | raw text => rfl
  | components components =>
    rw [Value.bare_components, Value.splice, Component.splice_of_nil (h components rfl)]

/-- Where no names are listed, only the spans are dropped. -/
theorem Declaration.splice_of_nil {declaration : Declaration}
    (h : ∀ components, declaration.value = .components components → ∀ component ∈ components,
      names component.span.stop = []) :
    declaration.splice names = declaration.bare := by
  rw [Declaration.bare, Declaration.splice, Value.splice_of_nil h]
  rfl

theorem spliceIn_append (front back : List Node) :
    spliceIn names (front ++ back) = spliceIn names front ++ spliceIn names back := by
  induction front with
  | nil => rfl
  | cons node front ih => rw [List.cons_append, spliceIn, spliceIn, ih, List.cons_append]

/-! ### Visits -/

/-- The change that lists names in the declarations. -/
def Change.splice (names : Nat → List String) : Change :=
  ⟨fun _ => ⟨0, 0⟩, Declaration.splice names, Raw.bare⟩

mutual

theorem Node.splice_eq_change (node : Node) : node.splice names = node.change (.splice names) := by
  match node with
  | .rule selector children span => rw [Node.splice, Node.change, spliceIn_eq_changeIn]; rfl
  | .atRule name prelude (some children) span =>
    rw [Node.splice, Node.change, spliceIn_eq_changeIn]
    rfl
  | .atRule name prelude none span => rfl
  | .declaration declaration => rfl
  | .raw raw => rfl

theorem spliceIn_eq_changeIn (nodes : List Node) :
    spliceIn names nodes = changeIn (.splice names) nodes := by
  match nodes with
  | [] => rfl
  | node :: nodes => rw [spliceIn, changeIn, Node.splice_eq_change, spliceIn_eq_changeIn]

end

/-- The declarations that can use families are the same, with names listed. -/
theorem filterMap_using?_splice (customProperties : Bool) (nodes : List Node) :
    (visits (spliceIn names nodes)).filterMap (Visit.using? customProperties) =
      ((visits nodes).filterMap (Visit.using? customProperties)).map
        (Declaration.splice names) := by
  rw [spliceIn_eq_changeIn]
  exact filterMap_using?_change (fun _ => rfl) customProperties nodes

/-- The declarations that name the families of `@font-face` rules are the same, with names
listed. -/
theorem filterMap_naming?_splice (nodes : List Node) :
    (visits (spliceIn names nodes)).filterMap Visit.naming? =
      ((visits nodes).filterMap Visit.naming?).map (Declaration.splice names) := by
  rw [spliceIn_eq_changeIn]
  exact filterMap_naming?_change (fun _ => rfl) nodes

end WebFonts.Css
