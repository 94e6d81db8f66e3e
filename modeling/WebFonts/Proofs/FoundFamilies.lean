import Mathlib.Data.List.Forall2
import WebFonts.Proofs.SpliceOffsets
import WebFonts.Proofs.Spliced

/-!
# What a stylesheet declares and uses

The families that a stylesheet declares or uses are found declaration by declaration. `namings` are
the declarations that declare families, and `usings` those that can use one; both are found part by
part in a longer stylesheet, and neither depends on spans. A stylesheet is searched with success
exactly if the families of each of these declarations are.
-/

namespace WebFonts.Css

/-! ### Declarations part by part -/

/-- The declarations that name the families of `@font-face` rules. -/
def namings (nodes : List Node) : List Declaration :=
  (visits nodes).filterMap Visit.naming?

/-- The declarations that can use a family. -/
def usings (customProperties : Bool) (nodes : List Node) : List Declaration :=
  (visits nodes).filterMap (Visit.using? customProperties)

variable {customProperties : Bool} {nodes : List Node}

theorem visitsIn_append (parent : Option Node) (front back : List Node) :
    visitsIn parent (front ++ back) = visitsIn parent front ++ visitsIn parent back := by
  induction front with
  | nil => rfl
  | cons node front ih => rw [List.cons_append, visitsIn, visitsIn, ih, List.append_assoc]

theorem namings_append (front back : List Node) :
    namings (front ++ back) = namings front ++ namings back := by
  rw [namings, visits, visitsIn_append, List.filterMap_append]
  rfl

theorem usings_append (front back : List Node) :
    usings customProperties (front ++ back) =
      usings customProperties front ++ usings customProperties back := by
  rw [usings, visits, visitsIn_append, List.filterMap_append]
  rfl

theorem namings_flatten (lists : List (List Node)) :
    namings lists.flatten = lists.flatMap namings := by
  induction lists with
  | nil => rfl
  | cons nodes lists ih => rw [List.flatten_cons, namings_append, ih, List.flatMap_cons]

theorem usings_flatten (lists : List (List Node)) :
    usings customProperties lists.flatten = lists.flatMap (usings customProperties) := by
  induction lists with
  | nil => rfl
  | cons nodes lists ih => rw [List.flatten_cons, usings_append, ih, List.flatMap_cons]

theorem namings_splice (names : Nat → List String) (nodes : List Node) :
    namings (spliceIn names nodes) = (namings nodes).map (Declaration.splice names) :=
  filterMap_naming?_splice nodes

theorem usings_splice (names : Nat → List String) (nodes : List Node) :
    usings customProperties (spliceIn names nodes) =
      (usings customProperties nodes).map (Declaration.splice names) :=
  filterMap_using?_splice customProperties nodes

theorem mem_declarationsIn_of_namings {declaration : Declaration}
    (h : declaration ∈ namings nodes) : declaration ∈ declarationsIn none nodes :=
  (sublist_filterMap (fun _ _ hnaming => (Option.filter_eq_some_iff.mp hnaming).1) _).subset h

theorem mem_declarationsIn_of_usings {declaration : Declaration}
    (h : declaration ∈ usings customProperties nodes) : declaration ∈ declarationsIn none nodes :=
  (sublist_filterMap (fun _ _ => declaration?_of_using?) _).subset h

/-! ### Rules that declare families -/

section FontFace

variable {declarations : List Declaration} {span : Span}

theorem visits_fontFace (prelude : String) :
    visits [.atRule "font-face" prelude (some (declarations.map .declaration)) span] =
      ⟨.atRule "font-face" prelude (some (declarations.map .declaration)) span, none⟩ ::
        declarations.map fun declaration => ⟨.declaration declaration,
          some (.atRule "font-face" prelude (some (declarations.map .declaration)) span)⟩ := by
  have hchildren (parent : Option Node) (declarations : List Declaration) :
      visitsIn parent (declarations.map .declaration) =
        declarations.map fun declaration => ⟨.declaration declaration, parent⟩ := by
    induction declarations with
    | nil => rfl
    | cons declaration declarations ih =>
      rw [List.map_cons, visitsIn, ih]
      rfl
  rw [visits, visitsIn, visitsIn, List.append_nil, Node.visits, hchildren]

theorem usings_fontFace (prelude : String) :
    usings customProperties
      [.atRule "font-face" prelude (some (declarations.map .declaration)) span] = [] := by
  rw [usings, visits_fontFace, List.filterMap_eq_nil_iff]
  intro visit hmem
  rcases List.mem_cons.mp hmem with rfl | hmem
  · rfl
  · obtain ⟨declaration, -, rfl⟩ := List.mem_map.mp hmem
    rfl

theorem namings_fontFace (prelude : String) :
    namings [.atRule "font-face" prelude (some (declarations.map .declaration)) span] =
      declarations.filter (·.property == "font-family") := by
  rw [namings, visits_fontFace, List.filterMap_cons_none rfl, List.filterMap_map,
    ← List.filterMap_eq_filter]
  rfl

end FontFace

/-! ### Families declaration by declaration -/

section MapM

variable {α β ε : Type} {f : α → Except ε β} {as : List α}

theorem forall₂_of_mapM_eq_ok {bs : List β} (h : as.mapM f = .ok bs) :
    List.Forall₂ (fun a b => f a = .ok b) as bs := by
  induction as generalizing bs with
  | nil =>
    cases h
    exact .nil
  | cons a as ih =>
    simp only [List.mapM_cons, bind, Except.bind, pure, Except.pure] at h
    split at h
    · cases h
    · rename_i b hb
      split at h
      · cases h
      · rename_i others hothers
        cases h
        exact .cons hb (ih hothers)

theorem exists_mapM_eq_ok (h : ∀ a ∈ as, ∃ b, f a = .ok b) : ∃ bs, as.mapM f = .ok bs := by
  induction as with
  | nil => exact ⟨[], rfl⟩
  | cons a as ih =>
    obtain ⟨b, hb⟩ := h a (List.mem_cons_self ..)
    obtain ⟨bs, hbs⟩ := ih fun other hmem => h other (List.mem_cons_of_mem _ hmem)
    exact ⟨b :: bs, by rw [List.mapM_cons, hb, hbs]; rfl⟩

end MapM

variable {declared : Names} {uses : List FamilyUse} {use : FamilyUse} {declaration : Declaration}

/-- A use asks for the first family of its declaration, which is not declared. -/
theorem use?_eq_some_iff {families : NamedFamilies} :
    families.use? declared = some use ↔ families.primary = some use.family ∧
      use.family ∉ declared ∧ use.request = families.request ∧
      use.spliceAt = families.firstStop := by
  simp only [NamedFamilies.use?, bind, Option.bind_eq_some_iff]
  constructor
  · rintro ⟨family, hprimary, h⟩
    split at h
    · cases h
    · rename_i hnot
      cases h
      exact ⟨hprimary, fun hmem => hnot (Std.ExtTreeSet.mem_iff_contains.mp hmem), rfl, rfl⟩
  · rintro ⟨hprimary, hnot, hrequest, hspliceAt⟩
    refine ⟨use.family, hprimary, ?_⟩
    rw [if_neg fun hcontains => hnot (Std.ExtTreeSet.mem_iff_contains.mpr hcontains),
      ← hrequest, ← hspliceAt]

/-- The families of a declaration that declares some are known, and all of them are declared. -/
theorem exists_families_of_namings (h : declaredNames nodes = .ok declared)
    (hmem : declaration ∈ namings nodes) :
    ∃ families, NamedFamilies.ofDeclaration? declaration = .ok families ∧
      ∀ name ∈ families.names, name ∈ declared := by
  simp only [declaredNames, bind, Except.bind, pure, Except.pure] at h
  split at h
  · cases h
  · rename_i lists hlists
    cases h
    obtain ⟨families, hfamilies, hof⟩ := exists_of_forall₂ (forall₂_of_mapM_eq_ok hlists) hmem
    refine ⟨families, hof, fun name hname => ?_⟩
    rw [Std.ExtTreeSet.mem_ofList, List.contains_iff_mem]
    exact List.mem_flatMap.mpr ⟨families, hfamilies, hname⟩

theorem mem_declared_of_namings (h : declaredNames nodes = .ok declared)
    (hmem : declaration ∈ namings nodes) {families : NamedFamilies}
    (hof : NamedFamilies.ofDeclaration? declaration = .ok families) {name : String}
    (hname : name ∈ families.names) : name ∈ declared := by
  obtain ⟨families', hof', hall⟩ := exists_families_of_namings h hmem
  rw [hof] at hof'
  cases hof'
  exact hall name hname

/-- A family is declared by a declaration that names it. -/
theorem exists_naming_of_mem (h : declaredNames nodes = .ok declared) {name : String}
    (hname : name ∈ declared) :
    ∃ declaration ∈ namings nodes, ∃ families,
      NamedFamilies.ofDeclaration? declaration = .ok families ∧ name ∈ families.names := by
  simp only [declaredNames, bind, Except.bind, pure, Except.pure] at h
  split at h
  · cases h
  · rename_i lists hlists
    cases h
    rw [Std.ExtTreeSet.mem_ofList, List.contains_iff_mem] at hname
    obtain ⟨families, hfamilies, hname⟩ := List.mem_flatMap.mp hname
    obtain ⟨declaration, hmem, hof⟩ :=
      exists_of_forall₂ (forall₂_of_mapM_eq_ok hlists).flip hfamilies
    exact ⟨declaration, hmem, families, hof, hname⟩

theorem exists_declaredNames
    (h : ∀ declaration ∈ namings nodes,
      ∃ families, NamedFamilies.ofDeclaration? declaration = .ok families) :
    ∃ declared, declaredNames nodes = .ok declared := by
  obtain ⟨lists, hlists⟩ := exists_mapM_eq_ok h
  refine ⟨.ofList (lists.flatMap (·.names)), ?_⟩
  rw [namings] at hlists
  rw [declaredNames, hlists]
  rfl

/-- The families of a declaration that can use one are known, and the use that it makes is found. -/
theorem exists_families_of_usings (h : familyUses nodes declared customProperties = .ok uses)
    (hmem : declaration ∈ usings customProperties nodes) :
    ∃ families, NamedFamilies.ofDeclaration? declaration = .ok families ∧
      ∀ use, NamedFamilies.use? declared families = some use → use ∈ uses := by
  simp only [familyUses, bind, Except.bind, pure, Except.pure] at h
  split at h
  · cases h
  · rename_i lists hlists
    cases h
    obtain ⟨families, hfamilies, hof⟩ := exists_of_forall₂ (forall₂_of_mapM_eq_ok hlists) hmem
    exact ⟨families, hof, fun use huse => List.mem_filterMap.mpr ⟨families, hfamilies, huse⟩⟩

theorem exists_familyUses
    (h : ∀ declaration ∈ usings customProperties nodes,
      ∃ families, NamedFamilies.ofDeclaration? declaration = .ok families) (declared : Names) :
    ∃ uses, familyUses nodes declared customProperties = .ok uses ∧
      ∀ use ∈ uses, ∃ declaration ∈ usings customProperties nodes,
        use.MadeBy declared declaration := by
  obtain ⟨lists, hlists⟩ := exists_mapM_eq_ok h
  rw [usings] at hlists
  refine ⟨lists.filterMap (NamedFamilies.use? declared), ?_, fun use huse => ?_⟩
  · rw [familyUses, hlists]
    rfl
  · obtain ⟨makers, hmakers, hall⟩ := @forall₂_of_mapM declared _ _ hlists
    obtain ⟨declaration, hdeclaration, hmade⟩ := exists_of_forall₂ hall huse
    exact ⟨declaration, hmakers.subset hdeclaration, hmade⟩

end WebFonts.Css
