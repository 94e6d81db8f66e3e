import WebFonts.Proofs.FoundFamilies

/-!
# Which declarations use families

A use is found for every declaration that can use a family and whose first family is not declared,
and for no other one. `familyUses_exact` says this of every stylesheet, with the declarations told
from the tree alone (`Declaration.StandsIn`), and adds when the search succeeds and when a use asks
for a family without a name.

The visits to a stylesheet meet exactly the declarations that stand in it (`mem_visitsIn_iff`). The
declarations that make uses are those that pass one test (`makes`), so that they keep the order in
which they stand in the source.
-/

namespace WebFonts.Css

variable {declaration : Declaration} {owner parent : Option Node} {nodes : List Node}

/-! ### Declarations in a tree -/

/-- A declaration stands among the nodes in the block of a parent, or in a block among them. `owner`
is the rule or at-rule in whose block it stands. -/
inductive Declaration.StandsIn (declaration : Declaration) (owner : Option Node) :
    Option Node → List Node → Prop
  | here {nodes : List Node} (h : .declaration declaration ∈ nodes) :
      StandsIn declaration owner owner nodes
  | rule {parent : Option Node} {nodes children : List Node} {selector : String} {span : Span}
      (hmem : .rule selector children span ∈ nodes)
      (h : StandsIn declaration owner (some (.rule selector children span)) children) :
      StandsIn declaration owner parent nodes
  | atRule {parent : Option Node} {nodes children : List Node} {name prelude : String} {span : Span}
      (hmem : .atRule name prelude (some children) span ∈ nodes)
      (h : StandsIn declaration owner (some (.atRule name prelude (some children) span)) children) :
      StandsIn declaration owner parent nodes

namespace Declaration

theorem StandsIn.mono {nodes' : List Node} (h : declaration.StandsIn owner parent nodes)
    (hsubset : nodes ⊆ nodes') : declaration.StandsIn owner parent nodes' := by
  cases h with
  | here h => exact .here (hsubset h)
  | rule hmem h => exact .rule (hsubset hmem) h
  | atRule hmem h => exact .atRule (hsubset hmem) h

/-- A declaration can use a family: it stands in a stylesheet, not directly in the block of an
`@font-face` rule, and its property is `font-family` or `font` or, on request, a custom one. -/
def CanUse (customProperties : Bool) (nodes : List Node) (declaration : Declaration) : Prop :=
  (∃ owner, declaration.StandsIn owner none nodes ∧
    ∀ prelude block span, owner ≠ some (.atRule "font-face" prelude block span)) ∧
  (declaration.property = "font-family" ∨ declaration.property = "font" ∨
    customProperties = true ∧ ∃ name, declaration.property.toList = '-' :: '-' :: name)

end Declaration

/-! ### Visits meet what stands in the tree -/

theorem visit_mem_of_mem {visit : Visit} {node : Node} (hmem : node ∈ nodes)
    (h : visit ∈ node.visits parent) : visit ∈ visitsIn parent nodes := by
  induction nodes with
  | nil => cases hmem
  | cons first nodes ih =>
    rw [visitsIn, List.mem_append]
    rcases List.mem_cons.mp hmem with rfl | hmem
    · exact .inl h
    · exact .inr (ih hmem)

mutual

theorem Node.standsIn_of_visits {node : Node} {parent : Option Node}
    (h : ⟨.declaration declaration, owner⟩ ∈ node.visits parent) :
    declaration.StandsIn owner parent [node] := by
  match node with
  | .rule selector children span =>
    rcases List.mem_cons.mp h with heq | hmem
    · cases heq
    · exact .rule (List.mem_singleton_self _) (standsIn_of_visitsIn hmem)
  | .atRule name prelude (some children) span =>
    rcases List.mem_cons.mp h with heq | hmem
    · cases heq
    · exact .atRule (List.mem_singleton_self _) (standsIn_of_visitsIn hmem)
  | .atRule name prelude none span => cases List.mem_singleton.mp h
  | .declaration inner =>
    cases List.mem_singleton.mp h
    exact .here (List.mem_singleton_self _)
  | .raw text => cases List.mem_singleton.mp h

theorem standsIn_of_visitsIn {nodes : List Node} {parent : Option Node}
    (h : ⟨.declaration declaration, owner⟩ ∈ visitsIn parent nodes) :
    declaration.StandsIn owner parent nodes := by
  match nodes with
  | [] => cases h
  | node :: others =>
    rcases List.mem_append.mp h with hmem | hmem
    · exact (Node.standsIn_of_visits hmem).mono (by simp)
    · exact (standsIn_of_visitsIn hmem).mono (List.subset_cons_self ..)

end

/-- The visits meet a declaration in a block exactly if it stands there. -/
theorem mem_visitsIn_iff :
    ⟨.declaration declaration, owner⟩ ∈ visitsIn parent nodes ↔
      declaration.StandsIn owner parent nodes := by
  refine ⟨standsIn_of_visitsIn, fun h => ?_⟩
  induction h with
  | here h => exact visit_mem_of_mem h (List.mem_singleton_self _)
  | rule hmem h ih => exact visit_mem_of_mem hmem (List.mem_cons_of_mem _ ih)
  | atRule hmem h ih => exact visit_mem_of_mem hmem (List.mem_cons_of_mem _ ih)

theorem isCustomProperty_iff {property : String} :
    isCustomProperty property = true ↔ ∃ name, property.toList = '-' :: '-' :: name := by
  unfold isCustomProperty
  split
  · rename_i name hname
    exact ⟨fun _ => ⟨name, hname⟩, fun _ => rfl⟩
  · rename_i hnone
    exact ⟨nofun, fun ⟨name, hname⟩ => absurd hname (hnone name)⟩

theorem insideFontFace_eq_false_iff {node : Node} :
    (Visit.mk node owner).insideFontFace = false ↔
      ∀ prelude block span, owner ≠ some (.atRule "font-face" prelude block span) := by
  rw [← Bool.not_eq_true, Visit.insideFontFace_iff]
  push Not
  rfl

/-- The declarations that pass a test of the visits which meet them. -/
theorem mem_filterMap_visits_iff {find? : Visit → Option Declaration}
    {test : Visit → Declaration → Bool}
    (hfind : ∀ visit, find? visit = visit.declaration?.filter (test visit)) :
    declaration ∈ (visits nodes).filterMap find? ↔
      ∃ owner, declaration.StandsIn owner none nodes ∧
        test ⟨.declaration declaration, owner⟩ declaration = true := by
  rw [List.mem_filterMap]
  constructor
  · rintro ⟨⟨node, owner⟩, hmem, hfound⟩
    obtain ⟨hmeets, htest⟩ := Option.filter_eq_some_iff.mp ((hfind _).symm.trans hfound)
    cases node <;> cases hmeets
    exact ⟨owner, mem_visitsIn_iff.mp hmem, htest⟩
  · rintro ⟨owner, hstands, htest⟩
    refine ⟨⟨.declaration declaration, owner⟩, mem_visitsIn_iff.mpr hstands, ?_⟩
    exact (hfind _).trans (Option.filter_eq_some_iff.mpr ⟨rfl, htest⟩)

/-- The declarations that can use a family are found by visiting the stylesheet. -/
theorem mem_usings_iff {customProperties : Bool} :
    declaration ∈ usings customProperties nodes ↔ declaration.CanUse customProperties nodes := by
  have hproperty : namesFamilies customProperties declaration.property = true ↔
      declaration.property = "font-family" ∨ declaration.property = "font" ∨
        customProperties = true ∧ ∃ name, declaration.property.toList = '-' :: '-' :: name := by
    simp [namesFamilies, isCustomProperty_iff, or_assoc]
  have hfind (visit : Visit) : visit.using? customProperties = visit.declaration?.filter
      fun declaration => !visit.insideFontFace && namesFamilies customProperties
        declaration.property :=
    rfl
  rw [usings, mem_filterMap_visits_iff hfind]
  simp only [Bool.and_eq_true, Bool.not_eq_true', insideFontFace_eq_false_iff, hproperty,
    Declaration.CanUse, ← and_assoc, exists_and_right]

/-! ### Declarations that make uses -/

variable {declared : Names} {uses : List FamilyUse} {declarations : List Declaration}

/-- Whether a declaration makes a use. -/
def makes (declared : Names) (declaration : Declaration) : Bool :=
  ((NamedFamilies.ofDeclaration? declaration).toOption.bind
    (NamedFamilies.use? declared)).isSome

/-- A declaration makes a use if its first family is known and not declared. -/
theorem makes_iff :
    makes declared declaration = true ↔
      ∃ families family, NamedFamilies.ofDeclaration? declaration = .ok families ∧
        families.names.head? = some family ∧ family ∉ declared := by
  simp only [makes, Option.isSome_iff_exists, Option.bind_eq_some_iff]
  constructor
  · rintro ⟨use, families, hfamilies, huse⟩
    obtain ⟨hprimary, hnot, -, -⟩ := use?_eq_some_iff.mp huse
    refine ⟨families, use.family, ?_, hprimary, hnot⟩
    cases hof : NamedFamilies.ofDeclaration? declaration with
    | error fault => rw [hof] at hfamilies; cases hfamilies
    | ok found => rw [hof] at hfamilies; cases hfamilies; rfl
  · rintro ⟨families, family, hfamilies, hprimary, hnot⟩
    refine ⟨⟨family, families.request, families.firstStop⟩, families, ?_, ?_⟩
    · rw [hfamilies]
      rfl
    · exact use?_eq_some_iff.mpr ⟨hprimary, hnot, rfl, rfl⟩

theorem forall₂_makers {lists : List NamedFamilies}
    (h : List.Forall₂ (fun declaration families =>
      NamedFamilies.ofDeclaration? declaration = .ok families) declarations lists) :
    List.Forall₂ (FamilyUse.MadeBy declared) (lists.filterMap (NamedFamilies.use? declared))
      (declarations.filter (makes declared)) := by
  induction h with
  | nil => exact .nil
  | @cons declaration families declarations lists hfamilies others ih =>
    cases huse : NamedFamilies.use? declared families with
    | none =>
      have hnot : makes declared declaration = false := by
        rw [makes, hfamilies]
        simp [Except.toOption, huse]
      rwa [List.filterMap_cons_none huse, List.filter_cons_of_neg (by simp [hnot])]
    | some use =>
      have hmakes : makes declared declaration = true := by
        rw [makes, hfamilies]
        simp [Except.toOption, huse]
      rw [List.filterMap_cons_some huse, List.filter_cons_of_pos hmakes]
      exact .cons ⟨families, hfamilies, huse⟩ ih

/-- What a use takes from the declaration that makes it. -/
def FamilyUse.TakenFrom (use : FamilyUse) (declaration : Declaration) : Prop :=
  ∃ families, NamedFamilies.ofDeclaration? declaration = .ok families ∧
    families.names = use.family :: use.request.fallbacks ∧
    use.request.generic = families.generic ∧ use.spliceAt = families.firstStop

theorem FamilyUse.MadeBy.takenFrom {use : FamilyUse} (h : use.MadeBy declared declaration) :
    use.TakenFrom declaration := by
  obtain ⟨families, hfamilies, huse⟩ := h
  obtain ⟨hprimary, -, hrequest, hspliceAt⟩ := use?_eq_some_iff.mp huse
  refine ⟨families, hfamilies, ?_, by rw [hrequest]; rfl, hspliceAt⟩
  rw [hrequest, NamedFamilies.request, List.drop_one]
  exact List.eq_cons_of_mem_head? hprimary

theorem Declaration.ReadFrom.covers {source : String} (h : declaration.ReadFrom source) :
    declaration.span.Covers source := by
  obtain ⟨cur, statement, next, hin, hreads, hread⟩ := h
  exact (Declaration.placed hin hreads hread).1.1

theorem familyUses_eq_ok {customProperties : Bool}
    (h : familyUses nodes declared customProperties = .ok uses) :
    ∃ lists, (usings customProperties nodes).mapM NamedFamilies.ofDeclaration? = .ok lists ∧
      uses = lists.filterMap (NamedFamilies.use? declared) := by
  simp only [familyUses, bind, Except.bind, pure, Except.pure] at h
  split at h
  · cases h
  · rename_i lists hlists
    cases h
    exact ⟨lists, hlists, rfl⟩

/-! ### Every use and no other -/

/-- The search succeeds exactly if all families that it looks at are known. -/
theorem familyUses_isOk_iff {customProperties : Bool} :
    (∃ uses, familyUses nodes declared customProperties = .ok uses) ↔
      ∀ declaration : Declaration, declaration.CanUse customProperties nodes →
        ∃ families, NamedFamilies.ofDeclaration? declaration = .ok families := by
  constructor
  · rintro ⟨uses, huses⟩ declaration hcan
    obtain ⟨families, hfamilies, -⟩ := exists_families_of_usings huses (mem_usings_iff.mpr hcan)
    exact ⟨families, hfamilies⟩
  · intro hknown
    obtain ⟨uses, huses, -⟩ :=
      exists_familyUses (fun _ hmem => hknown _ (mem_usings_iff.mp hmem)) declared
    exact ⟨uses, huses⟩

/-- Uses ask for a name exactly if no declaration that makes one begins with the empty name. -/
theorem family_ne_empty_iff {makers : List Declaration}
    (h : List.Forall₂ FamilyUse.TakenFrom uses makers) :
    (∀ use ∈ uses, use.family ≠ "") ↔ ∀ declaration ∈ makers, ∀ families,
      NamedFamilies.ofDeclaration? declaration = .ok families → families.names.head? ≠ some "" := by
  constructor
  · intro hnamed declaration hmem families hfamilies hempty
    obtain ⟨use, huse, families', hfamilies', hnames, -⟩ := exists_of_forall₂ h.flip hmem
    rw [hfamilies] at hfamilies'
    cases hfamilies'
    rw [hnames] at hempty
    exact hnamed use huse (Option.some.inj hempty)
  · intro hnamed use huse hempty
    obtain ⟨declaration, hmem, families, hfamilies, hnames, -⟩ := exists_of_forall₂ h huse
    apply hnamed declaration hmem families hfamilies
    rw [hnames, hempty]
    rfl

/-- **The search for uses is exact, whatever name comes first.** It succeeds exactly if the families
of every declaration that can use one are known. The uses that are found are then made, one each and
in the order of the source, by the declarations that can use a family and whose first one is not
declared; each carries that family, the others as fallbacks, the generic one and the offset behind
the first. None asks for a family without a name exactly if the empty name counts as declared or
comes first in no declaration that can use a family. -/
theorem familyUses_exact {source : String} (h : Sheet.ofText? source = .ok nodes)
    (declared : Names) (customProperties : Bool) :
    ((∃ uses, familyUses nodes declared customProperties = .ok uses) ↔
      ∀ declaration : Declaration, declaration.CanUse customProperties nodes →
        ∃ families, NamedFamilies.ofDeclaration? declaration = .ok families) ∧
    ∀ uses, familyUses nodes declared customProperties = .ok uses →
      (∃ makers : List Declaration,
        (∀ declaration ∈ makers, declaration.span.start < declaration.span.stop) ∧
        makers.Pairwise (fun first second => first.span.stop ≤ second.span.start) ∧
        (∀ declaration, declaration ∈ makers ↔ declaration.CanUse customProperties nodes ∧
          ∃ families family, NamedFamilies.ofDeclaration? declaration = .ok families ∧
            families.names.head? = some family ∧ family ∉ declared) ∧
        List.Forall₂ FamilyUse.TakenFrom uses makers) ∧
      ((∀ use ∈ uses, use.family ≠ "") ↔ "" ∈ declared ∨
        ∀ declaration : Declaration, declaration.CanUse customProperties nodes →
          ∀ families, NamedFamilies.ofDeclaration? declaration = .ok families →
            families.names.head? ≠ some "") := by
  refine ⟨familyUses_isOk_iff, fun uses huses => ?_⟩
  obtain ⟨lists, hlists, rfl⟩ := familyUses_eq_ok huses
  have hmade : List.Forall₂ FamilyUse.TakenFrom
      (lists.filterMap (NamedFamilies.use? declared)) _ :=
    (forall₂_makers (forall₂_of_mapM_eq_ok hlists)).imp fun _ _ hmade => hmade.takenFrom
  have hmakers (declaration : Declaration) :
      declaration ∈ (usings customProperties nodes).filter (makes declared) ↔
        declaration.CanUse customProperties nodes ∧
          ∃ families family, NamedFamilies.ofDeclaration? declaration = .ok families ∧
            families.names.head? = some family ∧ family ∉ declared := by
    rw [List.mem_filter, mem_usings_iff, makes_iff]
  have hinOrder := Sheet.declarations_of_ofText? h
  have hsublist : ((usings customProperties nodes).filter (makes declared)).Sublist
      ((visits nodes).filterMap Visit.declaration?) :=
    List.filter_sublist.trans (sublist_filterMap (fun _ _ => declaration?_of_using?) _)
  refine ⟨⟨_, fun declaration hmem => ?_, hinOrder.ordered.sublist hsublist, hmakers, hmade⟩, ?_⟩
  · exact (hinOrder.readFrom declaration (hsublist.subset hmem)).covers.1
  · rw [family_ne_empty_iff hmade]
    constructor
    · intro hnamed
      by_cases hdeclared : "" ∈ declared
      · exact .inl hdeclared
      · refine .inr fun declaration hcan families hfamilies hempty => ?_
        have hmem := (hmakers declaration).mpr ⟨hcan, families, "", hfamilies, hempty, hdeclared⟩
        exact hnamed declaration hmem families hfamilies hempty
    · rintro hnamed declaration hmem families hfamilies hempty
      obtain ⟨hcan, families', family, hfamilies', hfamily, hnot⟩ := (hmakers declaration).mp hmem
      rw [hfamilies] at hfamilies'
      cases hfamilies'
      rw [hempty] at hfamily
      cases hfamily
      rcases hnamed with hdeclared | hnamed
      · exact hnot hdeclared
      · exact hnamed declaration hcan families hfamilies hempty

/-- Of four declarations in a conditional at-rule two make a use: the family of the second one is
declared, and the last one stands in an `@font-face` rule. -/
theorem familyUses_exact_of_nested :
    ∃ nodes uses, Sheet.ofText?
        "@media x\x7ba\x7b--f:y;--g:z;font:1em 'é'\x7d@font-face\x7bfont-family:w\x7d\x7d" =
          .ok nodes ∧
      familyUses nodes (.ofList ["z"]) true = .ok uses ∧ uses.map (·.family) = ["y", "é"] ∧
      ∃ makers : List Declaration,
        (∀ declaration ∈ makers, declaration.span.start < declaration.span.stop) ∧
        makers.Pairwise (fun first second => first.span.stop ≤ second.span.start) ∧
        (∀ declaration, declaration ∈ makers ↔ declaration.CanUse true nodes ∧
          ∃ families family, NamedFamilies.ofDeclaration? declaration = .ok families ∧
            families.names.head? = some family ∧ family ∉ (.ofList ["z"] : Names)) ∧
        List.Forall₂ FamilyUse.TakenFrom uses makers := by
  have hfamilies : ((Sheet.ofText?
      "@media x\x7ba\x7b--f:y;--g:z;font:1em 'é'\x7d@font-face\x7bfont-family:w\x7d\x7d").bind
        fun nodes => (familyUses nodes (.ofList ["z"]) true).map fun uses =>
          uses.map (·.family)) = .ok ["y", "é"] := by
    decide +kernel
  obtain ⟨nodes, uses, hnodes, huses, hmap⟩ := exists_uses_of_map hfamilies
  obtain ⟨-, hexact⟩ := familyUses_exact hnodes (.ofList ["z"]) true
  obtain ⟨hmakers, -⟩ := hexact uses huses
  exact ⟨nodes, uses, hnodes, huses, hmap, hmakers⟩

/-- An empty string is a family without a name, and the declaration makes a use of it. -/
theorem use_of_empty_family :
    ∃ nodes uses, Sheet.ofText? "a\x7bfont-family:\"\"\x7d" = .ok nodes ∧
      familyUses nodes ∅ false = .ok uses ∧ ∃ use ∈ uses, use.family = "" := by
  have hfamilies : ((Sheet.ofText? "a\x7bfont-family:\"\"\x7d").bind fun nodes =>
      (familyUses nodes ∅ false).map fun uses => uses.map (·.family)) = .ok [""] := by
    decide +kernel
  obtain ⟨nodes, uses, hnodes, huses, hmap⟩ := exists_uses_of_map hfamilies
  obtain ⟨use, huse, hempty⟩ := List.mem_map.mp (hmap ▸ List.mem_singleton_self "")
  exact ⟨nodes, uses, hnodes, huses, use, huse, hempty⟩

end WebFonts.Css
