import WebFonts.Proofs.FirstFamily
import WebFonts.Proofs.FoundFamilies
import WebFonts.Proofs.Relocating

/-!
# Families of nodes at other offsets

Where a declaration stands at other offsets, it names the same families, and the end of the first
one is moved with it (`NamedFamilies.ofDeclaration?_relocate`). So relocated nodes declare the same
families (`declaredNames_relocate`) and use the same ones, each at its new offset
(`familyUses_relocate`), whatever happens to the nested rules among them.
-/

namespace WebFonts.Css

variable {move : Nat → Nat}

/-! ### Named families -/

/-- The same families, with another end of the first one. -/
def NamedFamilies.relocate (move : Nat → Nat) (families : NamedFamilies) : NamedFamilies :=
  { families with firstStop := families.firstStop.map move }

namespace NamedFamilies

theorem isComma_relocate (component : Component) :
    isComma (component.relocate move) = isComma component := by
  cases component with
  | token span leaf => cases leaf <;> rfl
  | function span name arguments => rfl

theorem isSlash_relocate (component : Component) :
    isSlash (component.relocate move) = isSlash component := by
  cases component with
  | token span leaf => cases leaf <;> rfl
  | function span name arguments => rfl

theorem isSize_relocate (component : Component) :
    isSize (component.relocate move) = isSize component := by
  cases component with
  | token span leaf => cases leaf <;> rfl
  | function span name arguments => rfl

theorem generic?_relocate (component : Component) :
    generic? (component.relocate move) = generic? component := by
  cases component with
  | token span leaf => cases leaf <;> rfl
  | function span name arguments => rfl

theorem string?_relocate (component : Component) :
    string? (component.relocate move) =
      (string? component).map (Prod.map id move) := by
  cases component with
  | token span leaf => cases leaf <;> rfl
  | function span name arguments => rfl

theorem word?_relocate (component : Component) :
    word? (component.relocate move) = (word? component).map (Prod.map id move) := by
  cases component with
  | token span leaf =>
    cases leaf with
    | ident name =>
      simp only [Component.relocate, word?]
      split <;> rfl
    | _ => rfl
  | function span name arguments => rfl

end NamedFamilies

/-- Two components mean the same for families, and the ends of what they name are moved. -/
structure Component.Resembles (move : Nat → Nat) (component component' : Component) : Prop where
  isComma : NamedFamilies.isComma component' = NamedFamilies.isComma component
  isSlash : NamedFamilies.isSlash component' = NamedFamilies.isSlash component
  isSize : NamedFamilies.isSize component' = NamedFamilies.isSize component
  generic? : NamedFamilies.generic? component' = NamedFamilies.generic? component
  string? : NamedFamilies.string? component' =
    (NamedFamilies.string? component).map (Prod.map id move)
  word? : NamedFamilies.word? component' = (NamedFamilies.word? component).map (Prod.map id move)

namespace NamedFamilies

theorem resembles_relocate (component : Component) :
    component.Resembles move (component.relocate move) where
  isComma := isComma_relocate component
  isSlash := isSlash_relocate component
  isSize := isSize_relocate component
  generic? := generic?_relocate component
  string? := string?_relocate component
  word? := word?_relocate component

section Lists

variable {α β γ δ : Type} {R : α → β → Prop} {as : List α} {bs : List β}

theorem filterMap_of_forall₂ {f : α → Option γ} {g : β → Option δ} {change : γ → δ}
    (h : List.Forall₂ R as bs) (hvalue : ∀ a b, R a b → g b = (f a).map change) :
    bs.filterMap g = (as.filterMap f).map change := by
  induction h with
  | nil => rfl
  | @cons a b as bs hfirst hothers ih =>
    rw [List.filterMap_cons, List.filterMap_cons, hvalue _ _ hfirst, ih]
    cases f a <;> rfl

theorem flatMap_of_forall₂ {f : α → List γ} {g : β → List δ} {change : γ → δ}
    (h : List.Forall₂ R as bs) (hvalue : ∀ a b, R a b → g b = (f a).map change) :
    bs.flatMap g = (as.flatMap f).map change := by
  induction h with
  | nil => rfl
  | cons hfirst hothers ih =>
    rw [List.flatMap_cons, List.flatMap_cons, hvalue _ _ hfirst, ih, List.map_append]

end Lists

variable {components components' : List Component}

theorem namesIn_resembles (h : List.Forall₂ (Component.Resembles move) components components') :
    namesIn components' = (namesIn components).map (Prod.map id move) := by
  have hstrings := filterMap_of_forall₂ h fun _ _ => Component.Resembles.string?
  have hwords := filterMap_of_forall₂ h fun _ _ => Component.Resembles.word?
  have hjoined : joinedWords? components' =
      (joinedWords? components).map (Prod.map id move) := by
    unfold joinedWords?
    simp only [hwords, List.getLast?_map, List.map_map, Option.map_map]
    rfl
  rw [namesIn, namesIn, hjoined, hstrings, List.map_append, ← Option.toList_map]

theorem splitOnP_resembles (h : List.Forall₂ (Component.Resembles move) components components') :
    List.Forall₂ (List.Forall₂ (Component.Resembles move)) (components.splitOnP isComma)
      (components'.splitOnP isComma) := by
  induction h with
  | nil => exact .cons .nil .nil
  | cons hfirst hothers ih =>
    rw [List.splitOnP_cons_eq_if_modifyHead, List.splitOnP_cons_eq_if_modifyHead, hfirst.isComma]
    split
    · exact .cons .nil ih
    · generalize List.splitOnP isComma _ = entries at ih ⊢
      generalize List.splitOnP isComma _ = entries' at ih ⊢
      cases ih with
      | nil => exact .nil
      | cons hentry hentries => exact .cons (.cons hfirst hentry) hentries

theorem ofComponents_resembles
    (h : List.Forall₂ (Component.Resembles move) components components') :
    ofComponents components' = (ofComponents components).relocate move := by
  have hnames := flatMap_of_forall₂ (splitOnP_resembles h) fun _ _ => namesIn_resembles
  have hgeneric : components'.filterMap generic? = components.filterMap generic? :=
    (filterMap_of_forall₂ h fun _ _ hlike => hlike.generic?.trans Option.map_id'.symm).trans
      (List.map_id' _)
  unfold ofComponents relocate
  simp only [hnames, hgeneric, List.head?_map, List.map_map, Option.map_map]
  rfl

theorem behindSize_resembles (h : List.Forall₂ (Component.Resembles move) components components') :
    List.Forall₂ (Component.Resembles move) (behindSize components) (behindSize components') := by
  induction h with
  | nil => exact .nil
  | @cons component component' components components' hfirst hothers ih =>
    have hslash : components'.head?.any isSlash = components.head?.any isSlash := by
      cases hothers with
      | nil => rfl
      | cons hsecond _ => exact hsecond.isSlash
    rw [behindSize_cons, behindSize_cons, hfirst.isSize, hslash]
    split
    · split
      · exact List.forall₂_drop 2 hothers
      · exact hothers
    · exact ih

theorem ofValue_resembles (property : String)
    (h : List.Forall₂ (Component.Resembles move) components components') :
    ofValue property components' = (ofValue property components).relocate move := by
  unfold ofValue
  split
  · exact ofComponents_resembles (behindSize_resembles h)
  · exact ofComponents_resembles h

/-- A declaration at other offsets names the same families. -/
theorem ofDeclaration?_relocate (declaration : Declaration) :
    ofDeclaration? (declaration.relocate move) =
      (ofDeclaration? declaration).map (relocate move) := by
  obtain ⟨property, value, important, span⟩ := declaration
  cases value with
  | components parts =>
    have hparts : List.Forall₂ (Component.Resembles move) parts
        (parts.map (Component.relocate move)) :=
      List.forall₂_map_right_iff.mpr (List.forall₂_same.mpr fun part _ => resembles_relocate part)
    exact congrArg Except.ok (ofValue_resembles property hparts)
  | raw raw =>
    simp only [ofDeclaration?, Declaration.relocate, Value.relocate, Raw.relocate]
    cases Component.ofText? raw.text <;> rfl

end NamedFamilies

/-! ### Relocated stylesheets -/

/-- A use at another offset. -/
def FamilyUse.relocate (move : Nat → Nat) (use : FamilyUse) : FamilyUse :=
  { use with spliceAt := use.spliceAt.map move }

variable {edit : Raw → Raw}

theorem namings_relocate (nodes : List Node) :
    namings (nodes.map (Node.relocate move edit)) =
      (namings nodes).map (Declaration.relocate move) := by
  rw [← Node.relocateIn_eq_map, Node.relocateIn_eq_changeIn]
  exact filterMap_naming?_change (fun _ => rfl) nodes

theorem usings_relocate (customProperties : Bool) (nodes : List Node) :
    usings customProperties (nodes.map (Node.relocate move edit)) =
      (usings customProperties nodes).map (Declaration.relocate move) := by
  rw [← Node.relocateIn_eq_map, Node.relocateIn_eq_changeIn]
  exact filterMap_using?_change (fun _ => rfl) customProperties nodes

theorem mapM_relocate (declarations : List Declaration) :
    (declarations.map (Declaration.relocate move)).mapM NamedFamilies.ofDeclaration? =
      (declarations.mapM NamedFamilies.ofDeclaration?).map
        (List.map (NamedFamilies.relocate move)) := by
  induction declarations with
  | nil => rfl
  | cons declaration declarations ih =>
    rw [List.map_cons, List.mapM_cons, List.mapM_cons, ih, NamedFamilies.ofDeclaration?_relocate]
    cases NamedFamilies.ofDeclaration? declaration with
    | error fault => rfl
    | ok families =>
      cases declarations.mapM NamedFamilies.ofDeclaration? <;> rfl

theorem declaredNames_eq (nodes : List Node) :
    declaredNames nodes = ((namings nodes).mapM NamedFamilies.ofDeclaration?).map
      fun lists => .ofList (lists.flatMap (·.names)) := rfl

namespace NamedFamilies

theorem names_relocate (lists : List NamedFamilies) :
    (lists.map (relocate move)).flatMap (·.names) = lists.flatMap (·.names) :=
  List.flatMap_map ..

theorem use?_relocate (declared : Names) (families : NamedFamilies) :
    (families.relocate move).use? declared =
      (families.use? declared).map (FamilyUse.relocate move) := by
  unfold use? primary
  rw [relocate]
  cases families.names.head? with
  | none => rfl
  | some family =>
    simp only [Option.bind_eq_bind, Option.bind_some]
    split <;> rfl

theorem uses_relocate (declared : Names) (lists : List NamedFamilies) :
    (lists.map (relocate move)).filterMap (use? declared) =
      (lists.filterMap (use? declared)).map (FamilyUse.relocate move) := by
  rw [List.filterMap_map, List.map_filterMap]
  exact congrArg (List.filterMap · lists) (funext fun families => use?_relocate declared families)

end NamedFamilies

/-- Relocated nodes declare the same families. -/
theorem declaredNames_relocate (nodes : List Node) :
    declaredNames (nodes.map (Node.relocate move edit)) = declaredNames nodes := by
  rw [declaredNames_eq, declaredNames_eq, namings_relocate, mapM_relocate]
  cases (namings nodes).mapM NamedFamilies.ofDeclaration? with
  | error fault => rfl
  | ok lists =>
    exact congrArg (fun names => Except.ok (Std.ExtTreeSet.ofList names))
      (NamedFamilies.names_relocate lists)

theorem familyUses_eq (nodes : List Node) (declared : Names) (customProperties : Bool) :
    familyUses nodes declared customProperties =
      ((usings customProperties nodes).mapM NamedFamilies.ofDeclaration?).map
        (List.filterMap (NamedFamilies.use? declared)) := rfl

/-- Relocated nodes use the same families, at the new offsets. -/
theorem familyUses_relocate (nodes : List Node) (declared : Names) (customProperties : Bool) :
    familyUses (nodes.map (Node.relocate move edit)) declared customProperties =
      (familyUses nodes declared customProperties).map (List.map (FamilyUse.relocate move)) := by
  rw [familyUses_eq, familyUses_eq, usings_relocate, mapM_relocate]
  cases (usings customProperties nodes).mapM NamedFamilies.ofDeclaration? with
  | error fault => rfl
  | ok lists => exact congrArg Except.ok (NamedFamilies.uses_relocate declared lists)

end WebFonts.Css
