import WebFonts.Proofs.ExactUses
import WebFonts.Proofs.RevisedSheet
import WebFonts.Resolver.Table

/-!
# Families that a stylesheet declares itself

A stylesheet may bring its own `@font-face` rules. `Reviser.revision_spares_declared` says what
these keep out of a revision by a table of families: a declaration that asks for a family which they
declare makes no use of it, and no rule is generated for it. Names are compared as they are written
for this, although the table takes names that differ in the case of ASCII letters only for one
family. So the stylesheet is kept from declaring a family of the table twice exactly if it spells
the families that it declares in one way wherever it asks for them.

The declared names are those that the `@font-face` rules of the tree name (`mem_declared_iff`), and
the rules of a revision are those of the families that the table knows (`mem_rules_iff`).
-/

namespace WebFonts

open Text (lower)

/-! ### Declaring and asking for a family -/

namespace Css

variable {nodes : List Node} {declared : Names} {name : String}

/-- An `@font-face` rule of the stylesheet declares a family of this name. -/
def Declares (nodes : List Node) (name : String) : Prop :=
  ∃ (declaration : Declaration) (prelude : String) (block : Option (List Node)) (span : Span),
    declaration.StandsIn (some (.atRule "font-face" prelude block span)) none nodes ∧
      declaration.property = "font-family" ∧
      ∃ families, NamedFamilies.ofDeclaration? declaration = .ok families ∧ name ∈ families.names

/-- A declaration asks for a family: it can use one, and this one comes first in it. -/
def Declaration.AsksFor (customProperties : Bool) (nodes : List Node) (family : String)
    (declaration : Declaration) : Prop :=
  declaration.CanUse customProperties nodes ∧
    ∃ families, NamedFamilies.ofDeclaration? declaration = .ok families ∧
      families.names.head? = some family

theorem Declaration.AsksFor.unique {customProperties : Bool} {declaration : Declaration}
    {family other : String} (h : declaration.AsksFor customProperties nodes family)
    (hother : declaration.AsksFor customProperties nodes other) : family = other := by
  obtain ⟨-, families, hfamilies, hfamily⟩ := h
  obtain ⟨-, families', hfamilies', hother⟩ := hother
  cases hfamilies.symm.trans hfamilies'
  exact Option.some.inj (hfamily.symm.trans hother)

/-- The declarations that name the families of `@font-face` rules are found by visiting the
stylesheet. -/
theorem mem_namings_iff {declaration : Declaration} :
    declaration ∈ namings nodes ↔
      (∃ prelude block span,
        declaration.StandsIn (some (.atRule "font-face" prelude block span)) none nodes) ∧
      declaration.property = "font-family" := by
  have hfind (visit : Visit) : visit.naming? = visit.declaration?.filter fun declaration =>
      visit.insideFontFace && declaration.property == "font-family" :=
    rfl
  rw [namings, mem_filterMap_visits_iff hfind]
  simp only [Bool.and_eq_true, beq_iff_eq, Visit.insideFontFace_iff]
  constructor
  · rintro ⟨owner, hstands, ⟨prelude, block, span, rfl⟩, hproperty⟩
    exact ⟨⟨prelude, block, span, hstands⟩, hproperty⟩
  · rintro ⟨⟨prelude, block, span, hstands⟩, hproperty⟩
    exact ⟨_, hstands, ⟨prelude, block, span, rfl⟩, hproperty⟩

theorem mem_declared_iff (h : declaredNames nodes = .ok declared) :
    name ∈ declared ↔ Declares nodes name := by
  constructor
  · intro hname
    obtain ⟨declaration, hmem, families, hfamilies, hnames⟩ := exists_naming_of_mem h hname
    obtain ⟨⟨prelude, block, span, hstands⟩, hproperty⟩ := mem_namings_iff.mp hmem
    exact ⟨declaration, prelude, block, span, hstands, hproperty, families, hfamilies, hnames⟩
  · rintro ⟨declaration, prelude, block, span, hstands, hproperty, families, hfamilies, hnames⟩
    have hmem := mem_namings_iff.mpr ⟨⟨prelude, block, span, hstands⟩, hproperty⟩
    exact mem_declared_of_namings h hmem hfamilies hnames

/-- The uses of a stylesheet are made, one each, by the declarations that ask for a family which the
stylesheet does not declare. -/
theorem exists_makers {customProperties : Bool} {uses : List FamilyUse}
    (hdeclared : declaredNames nodes = .ok declared)
    (huses : familyUses nodes declared customProperties = .ok uses) :
    ∃ makers : List Declaration,
      (∀ declaration, declaration ∈ makers ↔
        ∃ family, declaration.AsksFor customProperties nodes family ∧ ¬ Declares nodes family) ∧
      List.Forall₂ FamilyUse.TakenFrom uses makers := by
  obtain ⟨lists, hlists, rfl⟩ := familyUses_eq_ok huses
  refine ⟨(usings customProperties nodes).filter (makes declared), fun declaration => ?_,
    (forall₂_makers (forall₂_of_mapM_eq_ok hlists)).imp fun _ _ hmade => hmade.takenFrom⟩
  rw [List.mem_filter, mem_usings_iff, makes_iff]
  simp only [mem_declared_iff hdeclared, Declaration.AsksFor]
  constructor
  · rintro ⟨hcan, families, family, hfamilies, hfamily, hnot⟩
    exact ⟨family, ⟨hcan, families, hfamilies, hfamily⟩, hnot⟩
  · rintro ⟨family, ⟨hcan, families, hfamilies, hfamily⟩, hnot⟩
    exact ⟨hcan, families, family, hfamilies, hfamily, hnot⟩

/-- A declaration makes a use exactly for the family for which it asks. -/
theorem FamilyUse.TakenFrom.asksFor {customProperties : Bool} {use : FamilyUse}
    {declaration : Declaration} (h : use.TakenFrom declaration)
    (hcan : declaration.CanUse customProperties nodes) :
    declaration.AsksFor customProperties nodes use.family := by
  obtain ⟨families, hfamilies, hnames, -⟩ := h
  exact ⟨hcan, families, hfamilies, by rw [hnames]; rfl⟩

end Css

/-! ### The rules that a table brings -/

open Css (Declares Declaration FamilyUse)

theorem FontTable.resolver_eq_found_iff {table : FontTable} {name : String} {request : Request}
    {family : Family} :
    table.resolver name request = .found family ↔ table.lookUp name request = some family := by
  unfold FontTable.resolver
  cases table.lookUp name request <;> simp

/-- A table answers every request. -/
theorem Lookups.Follow.answered {table : FontTable} {lookups : Lookups}
    (h : lookups.Follow table.resolver) (uses : List FamilyUse) :
    ∀ reply ∈ lookups.replies uses, reply.fault? = none := by
  intro reply hreply
  rw [h uses reply hreply]
  unfold Reply.ofResolver FontTable.resolver
  cases table.lookUp reply.use.family reply.use.request <;> rfl

/-- The rules in front of a stylesheet are those of the families of its uses that the table
knows. -/
theorem Lookups.Follow.mem_rules_iff {table : FontTable} {lookups : Lookups}
    (h : lookups.Follow table.resolver) {directory : Option String} {uses : List FamilyUse}
    {rule : String} :
    rule ∈ Draft.leadRules directory (lookups.calls uses) ↔
      ∃ use ∈ uses, ∃ family, table.lookUp use.family use.request = some family ∧
        rule ∈ Draft.rules directory use.family family := by
  rw [Draft.mem_leadRules]
  constructor
  · rintro ⟨call, hcall, hrule⟩
    exact ⟨call.use, use_of_mem_calls hcall, call.family,
      FontTable.resolver_eq_found_iff.mp (h.found hcall), hrule⟩
  · rintro ⟨use, huse, family, hfamily, hrule⟩
    obtain ⟨reply, hreply, rfl⟩ := List.mem_map.mp ((lookups.perm uses).mem_iff.mpr huse)
    refine ⟨⟨reply.use, family⟩, List.mem_filterMap.mpr ⟨reply, hreply, ?_⟩, hrule⟩
    rw [Reply.call?_eq_some_iff, h uses reply hreply]
    exact ⟨rfl, FontTable.resolver_eq_found_iff.mpr hfamily⟩

/-! ### Revisions -/

namespace Reviser

/-- **A declared family is spared under the text by which it is declared.** A revision by a table of
families succeeds if the families of the stylesheet can be read. Uses are then made, one each, by
the declarations that ask for a family which no `@font-face` rule declares by the same text; and the
rules in front of the stylesheet are those that the table brings for these families. So no use asks
for a declared family, in any case of ASCII letters, exactly if each declaration that asks for one
in some case asks for a text that is declared. -/
theorem revision_spares_declared {reviser : Reviser} {table : FontTable} {lookups : Lookups}
    {options : Options} {css : String} {uses : List FamilyUse}
    (hfollow : lookups.Follow table.resolver) (hexecutor : reviser.hasExecutor = true)
    (huses : usesOf? css options.customProperties = .ok uses) (registry : Registry) :
    ∃ nodes registry' overlay, ∃ makers : List Declaration, ∃ rules : List String,
      Css.Sheet.ofText? css = .ok nodes ∧
      (∀ declaration, declaration ∈ makers ↔ ∃ family,
        declaration.AsksFor options.customProperties nodes family ∧ ¬ Declares nodes family) ∧
      List.Forall₂ FamilyUse.TakenFrom uses makers ∧
      reviser.reviseBy lookups options css registry = (registry', .ok overlay) ∧
      overlay.lead = Draft.finishedText reviser.tools options rules ∧
      (∀ rule, rule ∈ rules ↔ ∃ use ∈ uses, ∃ family,
        table.lookUp use.family use.request = some family ∧
          rule ∈ Draft.rules options.directory use.family family) ∧
      (∀ use ∈ uses, ¬ Declares nodes use.family) ∧
      ((∀ use ∈ uses, ∀ name, Declares nodes name → lower name ≠ lower use.family) ↔
        ∀ (declaration : Declaration) (family name : String),
          declaration.AsksFor options.customProperties nodes family → Declares nodes name →
            lower name = lower family → Declares nodes family) := by
  obtain ⟨nodes, declared, hnodes, hdeclared, hfamilies⟩ := exists_survey huses
  obtain ⟨makers, hmakers, htaken⟩ := Css.exists_makers hdeclared hfamilies
  obtain ⟨registry', overlay, hrun⟩ : ∃ registry' overlay,
      reviser.reviseBy lookups options css registry = (registry', .ok overlay) :=
    exists_overlay_of_answered huses (fun _ => hexecutor) (hfollow.answered uses)
  obtain ⟨uses', huses', hinserts, -, -⟩ := reviseBy_eq_ok hrun
  cases huses.symm.trans huses'
  have hasks : ∀ use ∈ uses, ∃ declaration : Declaration,
      declaration.AsksFor options.customProperties nodes use.family ∧
        ¬ Declares nodes use.family := by
    intro use huse
    obtain ⟨declaration, hmem, hfrom⟩ := Css.exists_of_forall₂ htaken huse
    obtain ⟨family, hfamily, hnot⟩ := (hmakers declaration).mp hmem
    have hown := hfrom.asksFor hfamily.1
    exact ⟨declaration, hown, hown.unique hfamily ▸ hnot⟩
  refine ⟨nodes, registry', overlay, makers, _, hnodes, hmakers, htaken, hrun, hinserts.lead,
    fun rule => hfollow.mem_rules_iff, fun use huse => ?_, ?_⟩
  · obtain ⟨-, -, hnot⟩ := hasks use huse
    exact hnot
  · constructor
    · intro hspared declaration family name hfamily hname hcase
      by_contra hnot
      have hmem := (hmakers declaration).mpr ⟨family, hfamily, hnot⟩
      obtain ⟨use, huse, hfrom⟩ := Css.exists_of_forall₂ htaken.flip hmem
      have hown := FamilyUse.TakenFrom.asksFor hfrom hfamily.1
      exact hspared use huse name hname (hown.unique hfamily ▸ hcase)
    · intro hspelled use huse name hname hcase
      obtain ⟨declaration, hdeclaration, hnot⟩ := hasks use huse
      exact hnot (hspelled declaration use.family name hdeclaration hname hcase)

/-! ### A table of one family -/

/-- A table that knows the family Foo. -/
def fooTable : FontTable :=
  FontTable.empty.enter "Foo" ⟨[.ofSources [.url "/f.woff2" none none]], [], none⟩

/-- A reviser that asks this table. -/
def askingFoo : Reviser :=
  ⟨fooTable.resolver, ⟨.passthrough, fun _ _ => true⟩, true⟩

/-- What is found in a stylesheet, told from the names alone. -/
theorem exists_survey_of_names (css : String) (declared families : List String)
    (hnames : ((Css.Sheet.ofText? css).bind Css.declaredNames).map (·.toList) = .ok declared)
    (huses : (usesOf? css false).map (fun uses => uses.map (·.family)) = .ok families) :
    ∃ nodes names uses, Survey css false nodes names uses ∧
      (∀ name, Declares nodes name ↔ name ∈ declared) ∧ uses.map (·.family) = families := by
  cases hfound : usesOf? css false with
  | error fault =>
    rw [hfound] at huses
    cases huses
  | ok uses =>
    rw [hfound] at huses
    obtain ⟨nodes, names, hsurvey⟩ := exists_survey hfound
    rw [hsurvey.read, Except.bind, hsurvey.declares] at hnames
    refine ⟨nodes, names, uses, hsurvey, fun name => ?_, Except.ok.inj huses⟩
    rw [← Css.mem_declared_iff hsurvey.declares, ← Std.ExtTreeSet.mem_toList,
      ← Except.ok.inj hnames]

/-- The stylesheet declares the family for which its first declaration asks, by the same text. The
table knows nothing of the family for which the other one asks. -/
theorem revision_spares_declared_of_same_text :
    let css := "@font-face\x7bfont-family:foo\x7da\x7bfont-family:foo\x7db\x7bfont-family:Bar\x7d"
    ∃ nodes uses, ∃ makers : List Declaration,
      Css.Sheet.ofText? css = .ok nodes ∧ usesOf? css false = .ok uses ∧
      uses.map (·.family) = ["Bar"] ∧ Declares nodes "foo" ∧
      (∀ declaration, declaration ∈ makers ↔
        ∃ family, declaration.AsksFor false nodes family ∧ ¬ Declares nodes family) ∧
      List.Forall₂ FamilyUse.TakenFrom uses makers ∧
      ∀ (declaration : Declaration) (family name : String), declaration.AsksFor false nodes family →
        Declares nodes name → lower name = lower family → Declares nodes family := by
  intro css
  obtain ⟨nodes, names, uses, hsurvey, hdeclares, huses⟩ :=
    exists_survey_of_names css ["foo"] ["Bar"] (by decide +kernel) (by decide +kernel)
  obtain ⟨nodes', -, -, makers, -, hnodes, hmakers, htaken, -, -, -, -, hspelled⟩ :=
    @revision_spares_declared askingFoo fooTable _ ⟨"a.css", true, false, none, none⟩ css uses
      (Lookups.follow_inOrder fooTable.resolver) rfl hsurvey.usesOf?_eq .empty
  cases hsurvey.read.symm.trans hnodes
  refine ⟨nodes, uses, makers, hnodes, hsurvey.usesOf?_eq, huses,
    (hdeclares "foo").mpr (List.mem_singleton_self _), hmakers, htaken,
    hspelled.mp fun use huse name hname hcase => ?_⟩
  have hfamily : use.family = "Bar" := List.mem_singleton.mp (huses ▸ List.mem_map_of_mem huse)
  rw [List.mem_singleton.mp ((hdeclares name).mp hname), hfamily] at hcase
  exact absurd hcase (by decide +kernel)

/-- A family that the stylesheet declares in another case is asked for all the same, and declared a
second time in front of it. -/
theorem redeclares_in_other_case :
    let css := "@font-face\x7bfont-family:foo\x7da\x7bfont-family:Foo\x7d"
    ∃ nodes uses registry overlay, ∃ declaration : Declaration, ∃ face : Face,
      Css.Sheet.ofText? css = .ok nodes ∧ usesOf? css false = .ok uses ∧
      declaration.AsksFor false nodes "Foo" ∧ Declares nodes "foo" ∧ lower "foo" = lower "Foo" ∧
      (∃ use ∈ uses, use.family = "Foo" ∧ use.TakenFrom declaration) ∧
      askingFoo.revise ⟨"a.css", true, false, none, none⟩ css .empty = (registry, .ok overlay) ∧
      overlay.render = face.rule "Foo" none ++ "\n" ++ css := by
  intro css
  let face : Face := .ofSources [.url "/f.woff2" none none]
  have hrender : (askingFoo.revise ⟨"a.css", true, false, none, none⟩ css .empty).2.map
      (fun overlay => overlay.render) = .ok (face.rule "Foo" none ++ "\n" ++ css) := by
    decide +kernel
  obtain ⟨nodes, names, uses, hsurvey, hdeclares, huses⟩ :=
    exists_survey_of_names css ["foo"] ["Foo"] (by decide +kernel) (by decide +kernel)
  obtain ⟨use, huse, hfamily⟩ := List.mem_map.mp (huses ▸ List.mem_singleton_self "Foo")
  obtain ⟨makers, hmakers, htaken⟩ := Css.exists_makers hsurvey.declares hsurvey.finds
  obtain ⟨declaration, hmem, hfrom⟩ := Css.exists_of_forall₂ htaken huse
  obtain ⟨family, ⟨hcan, -⟩, -⟩ := (hmakers declaration).mp hmem
  have hasks := hfamily ▸ hfrom.asksFor hcan
  generalize askingFoo.revise _ _ _ = run at hrender ⊢
  obtain ⟨registry, outcome⟩ := run
  cases outcome with
  | error fault => cases hrender
  | ok overlay =>
    exact ⟨nodes, uses, registry, overlay, declaration, face, hsurvey.read, hsurvey.usesOf?_eq,
      hasks, (hdeclares "foo").mpr (List.mem_singleton_self _), by decide +kernel,
      ⟨use, huse, hfamily, hfrom⟩, rfl, Except.ok.inj hrender⟩

end Reviser

end WebFonts
