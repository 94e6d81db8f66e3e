import WebFonts.Proofs.FirstFamily
import WebFonts.Proofs.FoundFamilies
import WebFonts.Proofs.RevisedSheet

/-!
# A second pass adds nothing

A revised stylesheet declares every family that was found for it, and the families for which nothing
was found are asked for in the same way as before. Therefore a revision of some revised stylesheets,
put together to one text, inserts nothing (`Reviser.second_pass`). A family that is found for one of
them counts as declared in all of them.

Where a line feed gets into a rule of one of the stylesheets, the text is not read at all.
-/

namespace WebFonts

open Css (Component Declaration FamilyUse NamedFamilies Names Node)
open Css.Sheet (Reading)
open Draft (Call)
open Text (size)

/-! ### The first family of a declaration with names in it -/

theorem Css.Component.bareAll_listed (names : List String) :
    bareAll (listed names) = listed names := by
  induction names with
  | nil => rfl
  | cons name names ih =>
    rw [listed, List.flatMap_cons, bareAll_append, ← listed, ih]
    rfl

/-- Names behind the first family of a value do not change which family is the first. -/
theorem Css.NamedFamilies.primary_listed {property : String} {front back : List Component}
    {token : Component} (names : List String)
    (hapart : ∀ component ∈ front ++ back, component.span.stop ≠ token.span.stop)
    (hcomma : isComma token = false)
    (h : (ofValue property (front ++ token :: back)).firstStop = some token.span.stop) :
    (ofValue property (front ++ token :: (Component.listed names ++ back))).primary =
      (ofValue property (front ++ token :: back)).primary := by
  cases names with
  | nil => rfl
  | cons name names => exact primary_insert hapart hcomma rfl h

theorem Survey.primary_of_namesBehind {css : String} {customProperties : Bool} {nodes : List Node}
    {declared : Names} {uses : List FamilyUse} {declaration declaration' : Declaration}
    {offset : Nat} {names : List String} {families families' : NamedFamilies}
    (h : Survey css customProperties nodes declared uses)
    (hmem : declaration ∈ Css.declarationsIn none nodes)
    (hbehind : NamesBehind declaration offset names declaration'.bare)
    (hof : NamedFamilies.ofDeclaration? declaration = .ok families)
    (hstop : families.firstStop = some offset)
    (hof' : NamedFamilies.ofDeclaration? declaration' = .ok families') :
    families'.primary = families.primary := by
  obtain ⟨front, span, leaf, back, hvalue, hleaf, rfl, hbare⟩ := hbehind
  obtain ⟨property', value', important', span'⟩ := declaration'
  simp only [Declaration.bare, Declaration.splice, Declaration.mk.injEq] at hbare
  obtain ⟨rfl, hvalue', -, -⟩ := hbare
  cases value' with
  | raw text => cases hvalue'
  | components all =>
    have hall : Component.bareAll all = Component.bareAll
        (front ++ .token span leaf :: (Component.listed names ++ back)) := by
      have hsplit : front ++ .token span leaf :: (Component.listed names ++ back) =
          (front ++ [.token span leaf]) ++ Component.listed names ++ back := by simp
      rw [hsplit, Component.bareAll_append, Component.bareAll_append, Component.bareAll_listed]
      exact Css.Value.components.inj ((Css.Value.bare_components all).symm.trans hvalue')
    have hcomma : NamedFamilies.isComma (.token span leaf) = false := by
      obtain ⟨text, rfl | rfl⟩ := hleaf <;> rfl
    unfold NamedFamilies.ofDeclaration? at hof hof'
    rw [hvalue] at hof
    cases hof
    cases hof'
    have hinsert := NamedFamilies.primary_listed names (h.apart hmem hvalue hleaf) hcomma hstop
    rw [← hinsert]
    simp only [NamedFamilies.primary]
    rw [← (NamedFamilies.ofValue_bare declaration.property all).1, hall,
      (NamedFamilies.ofValue_bare declaration.property _).1]

/-! ### The declarations of generated rules -/

section Generated

variable {rules : List (List (String × String))} {generated : List Node}

theorem usings_of_isFontFace {customProperties : Bool}
    (h : List.Forall₂ Css.IsFontFace rules generated) :
    Css.usings customProperties generated = [] := by
  induction h with
  | nil => rfl
  | @cons descriptors node rules generated hface _ ih =>
    obtain ⟨declarations, -, rfl⟩ := hface
    rw [← List.singleton_append, Css.usings_append, Css.usings_fontFace, ih]
    rfl

/-- What declares families in generated rules can be read. -/
theorem exists_components_of_isFontFace (h : List.Forall₂ Css.IsFontFace rules generated) :
    ∀ declaration ∈ Css.namings generated,
      ∃ components, declaration.value = .components components := by
  induction h with
  | nil => exact nofun
  | @cons descriptors node rules generated hface _ ih =>
    obtain ⟨declarations, hdescribes, rfl⟩ := hface
    intro declaration hmem
    rw [← List.singleton_append, Css.namings_append, Css.namings_fontFace] at hmem
    rcases List.mem_append.mp hmem with hmem | hmem
    · obtain ⟨descriptor, -, components, -, rfl⟩ :=
        Css.exists_of_forall₂ hdescribes.flip (List.mem_of_mem_filter hmem)
      exact ⟨_, rfl⟩
    · exact ih declaration hmem

theorem Rule.Declares.names_of_describes {descriptors : List (String × String)} {name : String}
    {declarations : List Declaration} (h : Rule.Declares descriptors name)
    (hname : '\n' ∉ name.toList)
    (hdescribes : List.Forall₂ Css.Describes descriptors declarations) :
    ∃ declaration : Declaration, declaration.bare ∈ declarations ∧
      declaration.property = "font-family" ∧
      ∃ families, NamedFamilies.ofDeclaration? declaration = .ok families ∧
        name ∈ families.names := by
  obtain ⟨others, rfl⟩ := List.head?_eq_some_iff.mp h.head
  cases hdescribes with
  | cons hfirst _ =>
    obtain ⟨components, hread, rfl⟩ := hfirst
    obtain ⟨span, hlegible⟩ := Css.legible_quote hname
    have hcomponents : components = [.token span (.string name)] :=
      Except.ok.inj (hread.symm.trans hlegible.read)
    subst hcomponents
    exact ⟨⟨"font-family", .components [.token span (.string name)], false, ⟨0, 0⟩⟩,
      List.mem_cons_self .., rfl, _, rfl, List.mem_cons_self ..⟩

/-- A rule declares one family. -/
theorem Rule.Declares.unique {descriptors descriptors' : List (String × String)}
    {name name' : String} (h : Rule.Declares descriptors name)
    (h' : Rule.Declares descriptors' name') (hname : '\n' ∉ name.toList)
    (hname' : '\n' ∉ name'.toList) (heq : Rule.render descriptors = Rule.render descriptors') :
    name = name' := by
  obtain ⟨others, rfl⟩ := List.head?_eq_some_iff.mp h.head
  obtain ⟨others', rfl⟩ := List.head?_eq_some_iff.mp h'.head
  obtain ⟨behind, hrule⟩ := toList_render_cons (Rule.quote name) others
  obtain ⟨behind', hrule'⟩ := toList_render_cons (Rule.quote name') others'
  rw [heq, hrule', List.append_cancel_left_eq] at hrule
  generalize hcur : Css.Cursor.mk 0 ((Rule.quote name').toList ++ behind') = cur
  have hrest : cur.rest = (Rule.quote name').toList ++ behind' := by rw [← hcur]
  -- one piece is read from the text of both
  have hpieces := (Css.Cursor.piece?_quote hname' hrest).symm.trans
    (Css.Cursor.piece?_quote hname (hrest.trans hrule))
  simp only [Except.ok.injEq, Option.some.injEq, Prod.mk.injEq] at hpieces
  cases hpieces.1
  rfl

/-- Generated rules declare the families that they are generated for. -/
theorem exists_naming_of_isFontFace (h : List.Forall₂ Css.IsFontFace rules generated)
    {descriptors : List (String × String)} (hmem : descriptors ∈ rules) {name : String}
    (hdeclares : Rule.Declares descriptors name) (hname : '\n' ∉ name.toList) :
    ∃ declaration : Declaration, declaration.bare ∈ Css.namings generated ∧
      ∃ families, NamedFamilies.ofDeclaration? declaration = .ok families ∧
        name ∈ families.names := by
  induction h with
  | nil => cases hmem
  | @cons first node rules generated hface _ ih =>
    rw [← List.singleton_append, Css.namings_append]
    rcases List.mem_cons.mp hmem with rfl | hmem
    · obtain ⟨declarations, hdescribes, rfl⟩ := hface
      obtain ⟨declaration, hdeclaration, hproperty, hfamilies⟩ :=
        hdeclares.names_of_describes hname hdescribes
      refine ⟨declaration, List.mem_append_left _ ?_, hfamilies⟩
      rw [Css.namings_fontFace]
      exact List.mem_filter.mpr ⟨hdeclaration, beq_iff_eq.mpr hproperty⟩
    · obtain ⟨declaration, hdeclaration, hfamilies⟩ := ih hmem
      exact ⟨declaration, List.mem_append_right _ hdeclaration, hfamilies⟩

end Generated

/-! ### What is found in one revised stylesheet -/

section Rewritten

variable {customProperties : Bool} {css : String} {nodes nodes' : List Node} {declared : Names}
  {uses : List FamilyUse} {calls : List Call} {directory : Option String}

/-- A revised stylesheet can use families where the stylesheet can. -/
theorem Rewrites.usings (h : Rewrites directory calls nodes nodes') :
    (Css.usings customProperties nodes').map Declaration.bare =
      (Css.usings customProperties nodes).map (Declaration.splice (Draft.namesAt calls)) := by
  obtain ⟨rules, generated, -, hgenerated, hbare⟩ := h
  calc (Css.usings customProperties nodes').map Declaration.bare
    _ = Css.usings customProperties (Css.bareIn nodes') := (Css.usings_splice _ nodes').symm
    _ = Css.usings customProperties (Css.spliceIn (Draft.namesAt calls) nodes) := by
      rw [hbare, Css.usings_append, usings_of_isFontFace hgenerated, List.nil_append]
    _ = _ := Css.usings_splice _ nodes

/-- A revised stylesheet declares families where its rules and the stylesheet do. -/
theorem Rewrites.namings (h : Rewrites directory calls nodes nodes') :
    ∃ rules generated, Lead directory calls rules ∧
      List.Forall₂ Css.IsFontFace rules generated ∧
      (Css.namings nodes').map Declaration.bare = Css.namings generated ++
        (Css.namings nodes).map (Declaration.splice (Draft.namesAt calls)) := by
  obtain ⟨rules, generated, hlead, hgenerated, hbare⟩ := h
  refine ⟨rules, generated, hlead, hgenerated, ?_⟩
  calc (Css.namings nodes').map Declaration.bare
    _ = Css.namings (Css.bareIn nodes') := (Css.namings_splice _ nodes').symm
    _ = _ := by rw [hbare, Css.namings_append, Css.namings_splice]

/-- A declaration that declares families makes no use, and so stays as it is. -/
theorem Answered.splice_of_namings {declaration : Declaration}
    (h : Answered css customProperties nodes declared uses calls)
    (hmem : declaration ∈ Css.namings nodes) :
    declaration.splice (Draft.namesAt calls) = declaration.bare := by
  apply h.splice_of_no_call (Css.mem_declarationsIn_of_namings hmem)
  rintro call - ⟨families, hfamilies, huse⟩
  obtain ⟨families', hfamilies', hall⟩ := Css.exists_families_of_namings h.declares hmem
  rw [hfamilies] at hfamilies'
  cases hfamilies'
  obtain ⟨hprimary, hnot, -⟩ := Css.use?_eq_some_iff.mp huse
  exact absurd (hall _ (List.mem_of_head? hprimary)) hnot

theorem exists_families_of_components {declaration : Declaration} {components : List Component}
    (h : declaration.bare.value = .components components) :
    ∃ families, NamedFamilies.ofDeclaration? declaration = .ok families := by
  unfold NamedFamilies.ofDeclaration?
  obtain ⟨property, value, important, span⟩ := declaration
  cases value with
  | raw text => cases h
  | components all => exact ⟨_, rfl⟩

end Rewritten

namespace Reviser

variable {reviser : Reviser} {customProperties : Bool} {css : String} {options : Options}
  {nodes nodes' : List Node} {declared : Names} {uses : List FamilyUse} {calls : List Call}

/-- A stylesheet that was revised, and the nodes as which the result is read. -/
structure ReadBack (reviser : Reviser) (options : Options) (css : String) (nodes : List Node)
    (declared : Names) (uses : List FamilyUse) (calls : List Call) (nodes' : List Node) : Prop
    extends Answered css options.customProperties nodes declared uses calls where
  found : ∀ call ∈ calls,
    reviser.resolver call.use.family call.use.request = .found call.family
  unknown : ∀ use ∈ uses, (∀ call ∈ calls, call.use ≠ use) →
    reviser.resolver use.family use.request = .unknown
  executor : uses ≠ [] → reviser.hasExecutor = true
  unbroken : ∀ call ∈ calls, ¬ call.Breaks
  rewrites : Rewrites options.directory calls nodes nodes'

namespace ReadBack

variable {declaration' : Declaration}

/-- What declares families in the result can be read. -/
theorem exists_families_of_namings
    (h : reviser.ReadBack options css nodes declared uses calls nodes')
    (hmem : declaration' ∈ Css.namings nodes') :
    ∃ families, NamedFamilies.ofDeclaration? declaration' = .ok families := by
  obtain ⟨rules, generated, -, hgenerated, hnamings⟩ := h.rewrites.namings
  have hbare := List.mem_map_of_mem (f := Declaration.bare) hmem
  rw [hnamings, List.mem_append] at hbare
  rcases hbare with hbare | hbare
  · obtain ⟨components, hvalue⟩ := exists_components_of_isFontFace hgenerated _ hbare
    exact exists_families_of_components hvalue
  · obtain ⟨declaration, hdeclaration, hsplice⟩ := List.mem_map.mp hbare
    rw [h.splice_of_namings hdeclaration] at hsplice
    obtain ⟨families, hof, -⟩ := Css.exists_families_of_namings h.declares hdeclaration
    obtain ⟨families', hof', -⟩ := NamedFamilies.ofDeclaration?_of_bare hsplice.symm hof
    exact ⟨families', hof'⟩

/-- The result declares what the stylesheet declares. -/
theorem exists_naming_of_declared
    (h : reviser.ReadBack options css nodes declared uses calls nodes')
    {name : String} (hname : name ∈ declared) :
    ∃ declaration' ∈ Css.namings nodes', ∃ families,
      NamedFamilies.ofDeclaration? declaration' = .ok families ∧ name ∈ families.names := by
  obtain ⟨rules, generated, -, -, hnamings⟩ := h.rewrites.namings
  obtain ⟨declaration, hdeclaration, families, hof, hmem⟩ :=
    Css.exists_naming_of_mem h.declares hname
  have hsplice : declaration.bare ∈ (Css.namings nodes').map Declaration.bare := by
    rw [hnamings, ← h.splice_of_namings hdeclaration]
    exact List.mem_append_right _ (List.mem_map_of_mem hdeclaration)
  obtain ⟨declaration', hdeclaration', hbare⟩ := List.mem_map.mp hsplice
  obtain ⟨families', hof', hnames, -⟩ := NamedFamilies.ofDeclaration?_of_bare hbare hof
  exact ⟨declaration', hdeclaration', families', hof', hnames ▸ hmem⟩

/-- The result declares every family that was found with a face. -/
theorem exists_naming_of_found
    (h : reviser.ReadBack options css nodes declared uses calls nodes') (hplain : reviser.Plain)
    {call : Call} (hcall : call ∈ calls) (hfaces : call.family.faces ≠ []) :
    ∃ declaration' ∈ Css.namings nodes', ∃ families,
      NamedFamilies.ofDeclaration? declaration' = .ok families ∧
        call.use.family ∈ families.names := by
  obtain ⟨rules, generated, hlead, hgenerated, hnamings⟩ := h.rewrites.namings
  have hplain (call : Call) (hcall : call ∈ calls) : call.family.Plain :=
    hplain _ _ _ (h.found call hcall)
  have hname : '\n' ∉ call.use.family.toList :=
    fun hmem => h.unbroken call hcall ⟨hmem, .inl hfaces⟩
  obtain ⟨face, hface⟩ := List.exists_mem_of_ne_nil _ hfaces
  have hbrought : face.descriptors call.use.family options.directory ∈
      call.descriptors options.directory :=
    List.mem_append_left _ (List.mem_map_of_mem hface)
  have hdeclares : Rule.Declares (face.descriptors call.use.family options.directory)
      call.use.family :=
    ⟨rfl, fun hname => ((hplain call hcall).1 face hface).readable hname options.directory⟩
  -- the rule that is inserted has the same text, and so declares the same family
  obtain ⟨descriptors, hmem, hrender⟩ := List.mem_map.mp (hlead.render_mem hcall hbrought)
  obtain ⟨shown, hshown, hbreaks⟩ := hlead.declares hplain hmem
  have hshownName : '\n' ∉ shown.toList := by
    intro hmem
    obtain ⟨other, hother, hbreak⟩ := hbreaks hmem
    exact h.unbroken other hother hbreak
  obtain rfl := hshown.unique hdeclares hshownName hname hrender
  obtain ⟨declaration, hdeclaration, families, hof, hnames⟩ :=
    exists_naming_of_isFontFace hgenerated hmem hshown hname
  have hmap : declaration.bare ∈ (Css.namings nodes').map Declaration.bare := by
    rw [hnamings]
    exact List.mem_append_left _ hdeclaration
  obtain ⟨declaration', hdeclaration', hbare⟩ := List.mem_map.mp hmap
  obtain ⟨families', hof', hnames', -⟩ := NamedFamilies.ofDeclaration?_of_bare hbare hof
  exact ⟨declaration', hdeclaration', families', hof', hnames' ▸ hnames⟩

/-- What can use a family in the result can be read. A use that it makes is one that the stylesheet
makes, with the same request, if the families count as declared that the stylesheet declares or that
were found for it; and nothing was found for this use. -/
theorem exists_use_of_usings
    (h : reviser.ReadBack options css nodes declared uses calls nodes')
    (hmem : declaration' ∈ Css.usings options.customProperties nodes') :
    ∃ families', NamedFamilies.ofDeclaration? declaration' = .ok families' ∧
      ∀ (declared' : Names) (use' : FamilyUse), (∀ name ∈ declared, name ∈ declared') →
        (∀ call ∈ calls, call.use.family ∈ declared') → families'.use? declared' = some use' →
        ∃ use ∈ uses, (∀ call ∈ calls, call.use ≠ use) ∧ use'.family = use.family ∧
          use'.request = use.request := by
  have hmap := List.mem_map_of_mem (f := Declaration.bare) hmem
  rw [h.rewrites.usings] at hmap
  obtain ⟨declaration, hdeclaration, hsplice⟩ := List.mem_map.mp hmap
  obtain ⟨families, hof, huses⟩ := Css.exists_families_of_usings h.finds hdeclaration
  have hinside := Css.mem_declarationsIn_of_usings hdeclaration
  by_cases hkept : ∀ call ∈ calls, call.use.MadeBy declared declaration →
      call.use.spliceAt = none
  · rw [h.splice_of_no_call hinside hkept] at hsplice
    obtain ⟨families', hof', hnames, hgeneric⟩ :=
      NamedFamilies.ofDeclaration?_of_bare hsplice.symm hof
    refine ⟨families', hof', fun declared' use' hdeclared hfound huse' => ?_⟩
    obtain ⟨hprimary, hnot, hrequest, -⟩ := Css.use?_eq_some_iff.mp huse'
    have hsame : families.primary = some use'.family := by
      rw [← hprimary, NamedFamilies.primary, NamedFamilies.primary, hnames]
    have huse := huses ⟨use'.family, families.request, families.firstStop⟩
      (Css.use?_eq_some_iff.mpr ⟨hsame, fun hmem => hnot (hdeclared _ hmem), rfl, rfl⟩)
    refine ⟨⟨use'.family, families.request, families.firstStop⟩, huse, ?_, rfl, ?_⟩
    · intro call hcall heq
      exact hnot (congrArg FamilyUse.family heq ▸ hfound call hcall)
    · rw [hrequest, NamedFamilies.request, NamedFamilies.request, hnames, hgeneric]
  · -- the family of a call with a place for names was found, and is declared now
    push Not at hkept
    obtain ⟨call, hcall, hmade, hplace⟩ := hkept
    obtain ⟨offset, hoffset⟩ := Option.ne_none_iff_exists'.mp hplace
    have hbehind : NamesBehind declaration offset call.fallbackNames declaration'.bare :=
      hsplice ▸ h.splice_of_madeBy hinside hcall hmade hoffset
    obtain ⟨families', hof'⟩ : ∃ families',
        NamedFamilies.ofDeclaration? declaration' = .ok families' := by
      obtain ⟨front, span, leaf, back, -, -, -, hbare⟩ := hbehind
      exact exists_families_of_components (congrArg Declaration.value hbare)
    refine ⟨families', hof', fun declared' use' _ hfound huse' => ?_⟩
    obtain ⟨made, hmadeOf, hmadeUse⟩ := hmade
    rw [hof] at hmadeOf
    cases hmadeOf
    obtain ⟨hfamily, -, -, hstop⟩ := Css.use?_eq_some_iff.mp hmadeUse
    obtain ⟨hprimary, hnot, -⟩ := Css.use?_eq_some_iff.mp huse'
    rw [h.primary_of_namesBehind hinside hbehind hof (hstop ▸ hoffset) hof', hfamily,
      Option.some.injEq] at hprimary
    rw [← hprimary] at hnot
    exact absurd (hfound call hcall) hnot

end ReadBack

/-! ### Some revised stylesheets, one behind another -/

/-- A stylesheet that was revised with success, its rules inserted as they are. -/
structure Pass (reviser : Reviser) where
  css : String
  options : Options
  lookups : Lookups
  registry : Registry
  registry' : Registry
  overlay : Overlay
  revised : reviser.reviseBy lookups options css registry = (registry', .ok overlay)
  follow : lookups.Follow reviser.resolver
  keeps : options.KeepsRules
  urlFree : UrlFree css options.customProperties

namespace Pass

variable (pass : reviser.Pass)

/-- A line feed gets into a rule. -/
def Breaks : Prop :=
  ∃ uses, usesOf? pass.css pass.options.customProperties = .ok uses ∧
    ∃ call ∈ pass.lookups.calls uses, call.Breaks

/-- The stylesheet ends with a rule or an at-rule that has a block. -/
def Settled : Prop :=
  ∀ nodes, Css.Sheet.ofText? pass.css = .ok nodes → Css.Sheet.Settled nodes

/-- The text of the revised stylesheet. -/
def text : List Char :=
  pass.overlay.render.toList

/-- If the text of a revised stylesheet can be divided into lexemes, no line feed got into a
rule. -/
theorem not_breaks_of_scans (hplain : reviser.Plain) {cur last : Css.Cursor} {rest : List Char}
    (hscans : cur.Scans last) (hlast : last.rest = []) (hrest : cur.rest = pass.text ++ rest) :
    ¬ pass.Breaks := by
  rintro ⟨uses, huses, call, hcall, hbreak⟩
  obtain ⟨uses', huses', hinserts, -⟩ := reviseBy_eq_ok pass.revised
  rw [huses] at huses'
  cases huses'
  obtain ⟨nodes, declared, hsurvey⟩ := exists_survey huses
  exact hinserts.not_breaks_of_scans ((hplain.of_follow pass.follow).of_mem_calls uses) pass.keeps
    (hsurvey.answered pass.lookups) hscans hlast hrest call hcall hbreak

/-- A revised stylesheet is read in front of another text, if it ends with a block or nothing
follows. -/
theorem exists_readBack (hplain : reviser.Plain) (hbreaks : ¬ pass.Breaks) {rest : List Char}
    (hrest : rest = [] ∨ pass.Settled) (offset : Nat) :
    ∃ nodes', Reading .top ⟨offset, pass.text ++ rest⟩ nodes' ⟨offset + size pass.text, rest⟩ ∧
      ∃ nodes declared uses calls,
        reviser.ReadBack pass.options pass.css nodes declared uses calls nodes' := by
  obtain ⟨uses, huses, hinserts, hreplies, hexecutor⟩ := reviseBy_eq_ok pass.revised
  obtain ⟨nodes, declared, hsurvey⟩ := exists_survey huses
  have hanswered := hsurvey.answered pass.lookups
  have hunbroken : ∀ call ∈ pass.lookups.calls uses, ¬ call.Breaks :=
    fun call hcall hbreak => hbreaks ⟨uses, huses, call, hcall, hbreak⟩
  obtain ⟨nodes', hreading, hrewrites⟩ := hinserts.reading_render
    ((hplain.of_follow pass.follow).of_mem_calls uses) pass.keeps hanswered pass.urlFree hunbroken
    (hrest.imp_right fun hsettled => hsettled nodes hsurvey.read) offset
  exact ⟨nodes', hreading, nodes, declared, uses, pass.lookups.calls uses, hanswered,
    fun _ => pass.follow.found, fun _ => pass.follow.unknown hreplies, hexecutor, hunbroken,
    hrewrites⟩

end Pass

/-- The texts of some revised stylesheets, one behind another. -/
def joined (passes : List reviser.Pass) : List Char :=
  passes.flatMap Pass.text

theorem joined_cons (pass : reviser.Pass) (passes : List reviser.Pass) :
    joined (pass :: passes) = pass.text ++ joined passes :=
  List.flatMap_cons

variable {passes : List reviser.Pass}

theorem settled_of_cons {pass : reviser.Pass}
    (hsettled : ∀ other ∈ (pass :: passes).dropLast, other.Settled) :
    (joined passes = [] ∨ pass.Settled) ∧ ∀ other ∈ passes.dropLast, other.Settled := by
  cases passes with
  | nil => exact ⟨.inl rfl, fun _ hmem => absurd hmem List.not_mem_nil⟩
  | cons next passes =>
    rw [List.dropLast_cons_cons] at hsettled
    exact ⟨.inr (hsettled pass (List.mem_cons_self ..)),
      fun other hmem => hsettled other (List.mem_cons_of_mem _ hmem)⟩

/-- Revised stylesheets are read one behind another, each of them as it is read alone. -/
theorem reading_joined (hplain : reviser.Plain)
    (hsettled : ∀ pass ∈ passes.dropLast, pass.Settled) (hbreaks : ∀ pass ∈ passes, ¬ pass.Breaks)
    (offset : Nat) :
    ∃ lists : List (List Node),
      Reading .top ⟨offset, joined passes⟩ lists.flatten ⟨offset + size (joined passes), []⟩ ∧
        List.Forall₂ (fun pass nodes' => ∃ nodes declared uses calls,
          reviser.ReadBack pass.options pass.css nodes declared uses calls nodes')
          passes lists := by
  induction passes generalizing offset with
  | nil => exact ⟨[], .nil .top _, .nil⟩
  | cons pass passes ih =>
    obtain ⟨hfirst, hothers⟩ := settled_of_cons hsettled
    obtain ⟨nodes', hreading, hback⟩ :=
      pass.exists_readBack hplain (hbreaks pass (List.mem_cons_self ..)) hfirst offset
    obtain ⟨lists, hlists, hall⟩ := ih hothers
      (fun other hmem => hbreaks other (List.mem_cons_of_mem _ hmem)) (offset + size pass.text)
    refine ⟨nodes' :: lists, ?_, .cons hback hall⟩
    rw [List.flatten_cons, joined_cons, Text.size_append, ← Nat.add_assoc]
    exact hreading.append hlists

/-- If revised stylesheets can be divided into lexemes, no line feed got into a rule of one. -/
theorem not_breaks_of_scans_joined (hplain : reviser.Plain)
    (hsettled : ∀ pass ∈ passes.dropLast, pass.Settled) {cur last : Css.Cursor}
    (hscans : cur.Scans last) (hlast : last.rest = []) (hrest : cur.rest = joined passes) :
    ∀ pass ∈ passes, ¬ pass.Breaks := by
  induction passes generalizing cur with
  | nil => exact fun _ hmem => absurd hmem List.not_mem_nil
  | cons pass passes ih =>
    obtain ⟨hfirst, hothers⟩ := settled_of_cons hsettled
    have hpass : ¬ pass.Breaks := pass.not_breaks_of_scans hplain hscans hlast hrest
    obtain ⟨nodes', hreading, -⟩ := pass.exists_readBack hplain hpass hfirst cur.offset
    have hbehind := hreading.scans
    rw [← joined_cons, ← hrest] at hbehind
    exact List.forall_mem_cons.mpr
      ⟨hpass, ih hothers (hscans.behind hbehind hlast) rfl⟩

theorem toList_join_render (passes : List reviser.Pass) :
    (String.join (passes.map (·.overlay.render))).toList = joined passes := by
  induction passes with
  | nil => rfl
  | cons pass passes ih =>
    rw [List.map_cons, String.join_cons, String.toList_append, ih, joined_cons]
    rfl

/-- What a second pass finds in revised stylesheets: uses of families for which nothing was found in
the first one. -/
theorem exists_usesOf_joined (hplain : reviser.Plain)
    (hfaces : ∀ family request answer,
      reviser.resolver family request = .found answer → answer.faces ≠ [])
    (hsame : ∀ pass ∈ passes, pass.options.customProperties = customProperties)
    {lists : List (List Node)}
    (hread : Css.Sheet.ofText? css = .ok lists.flatten)
    (hback : List.Forall₂ (fun pass nodes' => ∃ nodes declared uses calls,
      reviser.ReadBack pass.options pass.css nodes declared uses calls nodes')
      passes lists) :
    ∃ uses', usesOf? css customProperties = .ok uses' ∧ ∀ use' ∈ uses',
      reviser.resolver use'.family use'.request = .unknown ∧ reviser.hasExecutor = true := by
  have hpart {nodes' : List Node} (hmem : nodes' ∈ lists) : ∃ pass ∈ passes,
      ∃ nodes declared uses calls,
        reviser.ReadBack pass.options pass.css nodes declared uses calls nodes' :=
    Css.exists_of_forall₂ hback.flip hmem
  obtain ⟨declared', hdeclared'⟩ : ∃ declared',
      Css.declaredNames lists.flatten = .ok declared' := by
    apply Css.exists_declaredNames
    intro declaration' hmem
    rw [Css.namings_flatten] at hmem
    obtain ⟨nodes', hnodes', hmem⟩ := List.mem_flatMap.mp hmem
    obtain ⟨pass, -, nodes, declared, uses, calls, hpass⟩ := hpart hnodes'
    exact hpass.exists_families_of_namings hmem
  have hdeclares {nodes' : List Node} (hnodes' : nodes' ∈ lists) {name : String}
      (hname : ∃ declaration' ∈ Css.namings nodes', ∃ families,
        NamedFamilies.ofDeclaration? declaration' = .ok families ∧ name ∈ families.names) :
      name ∈ declared' := by
    obtain ⟨declaration', hmem, families, hof, hname⟩ := hname
    refine Css.mem_declared_of_namings hdeclared' ?_ hof hname
    rw [Css.namings_flatten]
    exact List.mem_flatMap.mpr ⟨nodes', hnodes', hmem⟩
  have husings {declaration' : Declaration}
      (hmem : declaration' ∈ Css.usings customProperties lists.flatten) :
      ∃ families', NamedFamilies.ofDeclaration? declaration' = .ok families' ∧
        ∀ use', families'.use? declared' = some use' →
          reviser.resolver use'.family use'.request = .unknown ∧ reviser.hasExecutor = true := by
    rw [Css.usings_flatten] at hmem
    obtain ⟨nodes', hnodes', hmem⟩ := List.mem_flatMap.mp hmem
    obtain ⟨pass, hpass, nodes, declared, uses, calls, hreadBack⟩ := hpart hnodes'
    rw [← hsame pass hpass] at hmem
    obtain ⟨families', hof', huses⟩ := hreadBack.exists_use_of_usings hmem
    refine ⟨families', hof', fun use' huse' => ?_⟩
    obtain ⟨use, huse, hnone, hfamily, hrequest⟩ := huses declared' use'
      (fun name hname => hdeclares hnodes' (hreadBack.exists_naming_of_declared hname))
      (fun call hcall => hdeclares hnodes' (hreadBack.exists_naming_of_found hplain hcall
        (hfaces _ _ _ (hreadBack.found call hcall)))) huse'
    rw [hfamily, hrequest]
    exact ⟨hreadBack.unknown use huse hnone, hreadBack.executor (List.ne_nil_of_mem huse)⟩
  obtain ⟨uses', hfinds, hmakers⟩ := Css.exists_familyUses
    (fun declaration' hmem => (husings hmem).imp fun _ => And.left) declared'
  refine ⟨uses', Survey.usesOf?_eq ⟨hread, hdeclared', hfinds⟩, fun use' huse' => ?_⟩
  obtain ⟨declaration', hmem, families, hof, hmade⟩ := hmakers use' huse'
  obtain ⟨families', hof', hall⟩ := husings hmem
  rw [hof] at hof'
  cases hof'
  exact hall use' hmade

/-- A second pass adds nothing. Let some stylesheets be revised with success, their rules inserted
as they are, and let all but the last of them end with a block. If answers are plain and hold a face
each, then a revision of the results, put together to one text, finds every family either declared
or unknown: it succeeds, inserts nothing and records nothing.

This fails exactly if a line feed got into a rule of one of the stylesheets: the text is not read at
all then. -/
theorem second_pass (hplain : reviser.Plain)
    (hfaces : ∀ family request answer,
      reviser.resolver family request = .found answer → answer.faces ≠ [])
    (hsettled : ∀ pass ∈ passes.dropLast, pass.Settled) {options : Options}
    (hsame : ∀ pass ∈ passes, pass.options.customProperties = options.customProperties)
    {lookups : Lookups} (hfollow : lookups.Follow reviser.resolver) (registry : Registry) :
    ((∀ pass ∈ passes, ¬ pass.Breaks) → ∃ overlay,
      reviser.reviseBy lookups options (String.join (passes.map (·.overlay.render))) registry =
        (registry, .ok overlay) ∧ overlay.isChanged = false) ∧
    ((∃ pass ∈ passes, pass.Breaks) → ∃ fault,
      reviser.reviseBy lookups options (String.join (passes.map (·.overlay.render))) registry =
        (registry, .error (.parse fault))) := by
  have htext := toList_join_render passes
  generalize String.join (passes.map (·.overlay.render)) = text at htext ⊢
  constructor
  · intro hbreaks
    obtain ⟨lists, hreading, hback⟩ := reading_joined hplain hsettled hbreaks 0
    rw [← htext] at hreading
    have hread : Css.Sheet.ofText? text = .ok lists.flatten :=
      Css.Sheet.ofText?_eq_ok_iff.mpr ⟨_, hreading, rfl⟩
    obtain ⟨uses', huses', hunknown⟩ := exists_usesOf_joined hplain hfaces hsame hread hback
    refine ⟨.ofSource text, reviseBy_of_unknown huses' (fun reply hreply => ?_) fun hne => ?_, ?_⟩
    · rw [hfollow uses' reply hreply]
      exact (hunknown reply.use (lookups.use_of_mem_replies hreply)).1
    · obtain ⟨use', huse'⟩ := List.exists_mem_of_ne_nil _ hne
      exact (hunknown use' huse').2
    · simp [Overlay.isChanged, Overlay.ofSource]
  · rintro ⟨pass, hmem, hbreak⟩
    cases hread : Css.Sheet.ofText? text with
    | error fault =>
      refine ⟨fault, ?_⟩
      have huses : usesOf? text options.customProperties = .error fault := by
        rw [usesOf?, hread]
        rfl
      rw [reviseBy, huses]
    | ok nodes' =>
      obtain ⟨last, hreading, hend⟩ := Css.Sheet.ofText?_eq_ok_iff.mp hread
      exact absurd hbreak
        (not_breaks_of_scans_joined hplain hsettled hreading.scans hend htext pass hmem)

/-! ### Stylesheets to which this applies -/

/-- The conditions on a stylesheet can be checked. -/
theorem exists_pass_of_checks {options : Options} {css : String} (hkeeps : options.KeepsRules)
    (hrun : (reviser.revise options css .empty).2.map (fun _ => ()) = .ok ())
    (huses : (usesOf? css options.customProperties).map (·.all fun use =>
      use.family.toList.all (· != '\n')) = .ok true)
    (hurl : ((Css.Sheet.ofText? css).map fun nodes =>
      ((Css.visits nodes).filterMap (Css.Visit.using? options.customProperties)).all
        fun declaration => !declaration.value.hasUrl) = .ok true) :
    ∃ pass : reviser.Pass, pass.css = css ∧ pass.options = options ∧ ¬ pass.Breaks := by
  generalize hrevise : reviser.revise options css .empty = outcome at hrun
  obtain ⟨registry, found⟩ := outcome
  cases found with
  | error fault => cases hrun
  | ok overlay =>
    refine ⟨⟨css, options, _, .empty, registry, overlay, hrevise, Lookups.follow_inOrder _, hkeeps,
      urlFree_of_all hurl⟩, rfl, rfl, ?_⟩
    rintro ⟨uses, hfound, call, hcall, hbreak, -⟩
    rw [show usesOf? css options.customProperties = .ok uses from hfound] at huses
    have hname := List.all_eq_true.mp (Except.ok.inj huses) call.use
      (Lookups.use_of_mem_calls hcall)
    have hne := List.all_eq_true.mp hname '\n' hbreak
    exact absurd hne (by decide)

theorem settled_of_check {pass : reviser.Pass} {css : String} (hcss : pass.css = css)
    (h : (Css.Sheet.ofText? css).map (·.getLast?.all Node.hasBlock) = .ok true) :
    pass.Settled := by
  rintro nodes hread last hlast
  rw [hcss] at hread
  rw [hread] at h
  have hall : nodes.getLast?.all Node.hasBlock = true := Except.ok.inj h
  rwa [hlast, Option.all_some] at hall

/-- A family that one stylesheet uses is declared in both, and the other family of the second one
is as well. -/
theorem second_pass_of_two_sheets :
    ∃ passes : List ofOneFace.Pass,
      passes.map Pass.css = ["a\x7bfont:1em 'b',serif!important\x7d",
        "a\x7bfont-family:b,c\x7d d\x7bfont-family:e\x7d"] ∧
      (∀ pass ∈ passes, ¬ pass.Breaks) ∧ ∃ overlay,
        ofOneFace.revise ⟨"all.css", false, false, none, none⟩
          (String.join (passes.map (·.overlay.render))) .empty = (.empty, .ok overlay) ∧
        overlay.isChanged = false := by
  obtain ⟨first, hcss, hoptions, hfirst⟩ :
      ∃ pass : ofOneFace.Pass, pass.css = "a\x7bfont:1em 'b',serif!important\x7d" ∧
        pass.options = ⟨"a.css", true, false, none, none⟩ ∧ ¬ pass.Breaks :=
    exists_pass_of_checks (.inl rfl) (by decide +kernel) (by decide +kernel) (by decide +kernel)
  obtain ⟨second, hcss', hoptions', hsecond⟩ :
      ∃ pass : ofOneFace.Pass,
        pass.css = "a\x7bfont-family:b,c\x7d d\x7bfont-family:e\x7d" ∧
          pass.options = ⟨"b.css", false, false, none, none⟩ ∧ ¬ pass.Breaks :=
    exists_pass_of_checks (.inr rfl) (by decide +kernel) (by decide +kernel) (by decide +kernel)
  have hbreaks : ∀ pass ∈ [first, second], ¬ pass.Breaks := by
    intro pass hmem
    rcases List.mem_pair.mp hmem with rfl | rfl
    · exact hfirst
    · exact hsecond
  have hsettled : ∀ pass ∈ [first, second].dropLast, pass.Settled := by
    intro pass hmem
    obtain rfl := List.mem_singleton.mp hmem
    exact settled_of_check hcss (by decide +kernel)
  have hsame : ∀ pass ∈ [first, second], pass.options.customProperties = false := by
    intro pass hmem
    rcases List.mem_pair.mp hmem with rfl | rfl
    · rw [hoptions]
    · rw [hoptions']
  refine ⟨[first, second], by rw [List.map_cons, List.map_singleton, hcss, hcss'], hbreaks, ?_⟩
  refine (second_pass plain_ofOneFace ?_ hsettled hsame (Lookups.follow_inOrder _) .empty).1
    hbreaks
  intro family request answer hfound
  cases hfound
  exact List.cons_ne_nil _ _

/-- A stylesheet whose revision succeeds, but with a line feed in a rule: a second pass fails. -/
theorem second_pass_fails_of_line_feed :
    let result := "@font-face \x7b\n  font-family: \"x\ny\";\n" ++
      "  src: url(\"/f.woff2\") format(\"woff2\");\n  font-display: swap;\n\x7d\n" ++
      "@font-face \x7b\n  font-family: \"x\ny Fallback: Arial\";\n" ++
      "  src: local(\"Arial\");\n\x7d\n" ++
      "a\x7bfont-family:\"x\\a y\", \"x\ny Fallback: Arial\"\x7d"
    (ofOneFace.revise ⟨"a.css", true, false, none, none⟩ "a\x7bfont-family:\"x\\a y\"\x7d"
        .empty).2.map Overlay.render = .ok result ∧
      (ofOneFace.revise ⟨"a.css", true, false, none, none⟩ result .empty).2.map
        Overlay.isChanged = .error (.parse ⟨.unterminatedString, 28⟩) := by
  decide +kernel

end Reviser

end WebFonts
