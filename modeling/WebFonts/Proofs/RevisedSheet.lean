import Mathlib.Data.List.Pairwise
import WebFonts.Proofs.LeadRules
import WebFonts.Proofs.Replies

/-!
# What a revised stylesheet is read as

A revised stylesheet is read as the rules that were generated, and behind them the nodes of the
stylesheet with the names of fallback families in the declarations that use these families
(`Inserts.reading_render`). Nothing else is changed, and the names stand right behind the last token
of the first family (`Answered.splice_of_madeBy`).

This holds unless a family has a line feed in its name, which a stylesheet can write as an escape. A
rule that declares such a family is not closed, so that nothing can be read of the revised
stylesheet. `Reviser.revise_reads_back` states both cases.
-/

namespace WebFonts

open Css (Component Declaration FamilyUse NamedFamilies Names Node Value)
open Css.Sheet (Reading Settled)
open Draft (Call)
open Text (size)

/-! ### What is found in a stylesheet -/

/-- The nodes of a stylesheet, the families that it declares, and those that it uses. -/
structure Survey (css : String) (customProperties : Bool) (nodes : List Node) (declared : Names)
    (uses : List FamilyUse) : Prop where
  read : Css.Sheet.ofText? css = .ok nodes
  declares : Css.declaredNames nodes = .ok declared
  finds : Css.familyUses nodes declared customProperties = .ok uses

/-- Whether an address stands in a value, at any depth. -/
def Css.Value.hasUrl : Value → Bool
  | .components all => Component.anyHasUrl all
  | .raw _ => false

/-- No address stands in the value of a declaration that uses a family. -/
def UrlFree (css : String) (customProperties : Bool) : Prop :=
  ∀ nodes declared uses, Survey css customProperties nodes declared uses →
    ∀ declaration ∈ (Css.visits nodes).filterMap (Css.Visit.using? customProperties),
      ∀ use ∈ uses, use.MadeBy declared declaration → declaration.value.hasUrl = false

theorem exists_survey {css : String} {customProperties : Bool} {uses : List FamilyUse}
    (h : usesOf? css customProperties = .ok uses) :
    ∃ nodes declared, Survey css customProperties nodes declared uses := by
  simp only [usesOf?, bind, Except.bind] at h
  split at h
  · cases h
  · rename_i nodes hnodes
    split at h
    · cases h
    · rename_i declared hdeclared
      exact ⟨nodes, declared, hnodes, hdeclared, h⟩

section MadeBy

variable {declared : Names} {use use' : FamilyUse} {declaration : Declaration}

/-- A declaration makes one use at most. -/
theorem Css.FamilyUse.MadeBy.unique (h : use.MadeBy declared declaration)
    (h' : use'.MadeBy declared declaration) : use = use' := by
  obtain ⟨families, hfamilies, huse⟩ := h
  obtain ⟨families', hfamilies', huse'⟩ := h'
  rw [hfamilies] at hfamilies'
  cases hfamilies'
  rw [huse] at huse'
  exact Option.some.inj huse'

/-- Names can only be placed in a value that is divided into components. -/
theorem Css.FamilyUse.MadeBy.value {offset : Nat} (h : use.MadeBy declared declaration)
    (hoffset : use.spliceAt = some offset) :
    ∃ components, declaration.value = .components components ∧
      (NamedFamilies.ofValue declaration.property components).firstStop = some offset := by
  obtain ⟨families, hfamilies, huse⟩ := h
  rw [Css.spliceAt_of_use? huse] at hoffset
  unfold NamedFamilies.ofDeclaration? at hfamilies
  split at hfamilies
  · rename_i components hvalue
    cases hfamilies
    exact ⟨components, hvalue, hoffset⟩
  · simp only [bind, Except.bind, pure, Except.pure] at hfamilies
    split at hfamilies <;> cases hfamilies
    cases hoffset

end MadeBy

/-- Names are added to a declaration right behind the token of a family name that ends at an
offset. -/
def NamesBehind (declaration : Declaration) (offset : Nat) (names : List String)
    (spliced : Declaration) : Prop :=
  ∃ front span leaf back,
    declaration.value = .components (front ++ .token span leaf :: back) ∧
      NamedFamilies.NamesFamily leaf ∧ span.stop = offset ∧
      spliced = ⟨declaration.property,
        .components (Component.bareAll (front ++ [.token span leaf]) ++ Component.listed names ++
          Component.bareAll back), declaration.important, ⟨0, 0⟩⟩

/-- What is found in a stylesheet is unique. -/
theorem Survey.usesOf?_eq {css : String} {customProperties : Bool} {nodes : List Node}
    {declared : Names} {uses : List FamilyUse}
    (h : Survey css customProperties nodes declared uses) :
    usesOf? css customProperties = .ok uses := by
  simp only [usesOf?, bind, Except.bind, h.read, h.declares, h.finds]

namespace Survey

variable {css : String} {customProperties : Bool} {nodes : List Node} {declared : Names}
  {uses : List FamilyUse} {use : FamilyUse} {declaration : Declaration} {offset : Nat}

/-- A use is made by a declaration, which takes names behind the last token of its first family. -/
theorem maker (h : Survey css customProperties nodes declared uses) (hmem : use ∈ uses)
    (hoffset : use.spliceAt = some offset) :
    ∃ declaration ∈ (Css.visits nodes).filterMap (Css.Visit.using? customProperties),
      use.MadeBy declared declaration ∧ ∃ components, declaration.value = .components components ∧
        (NamedFamilies.ofValue declaration.property components).firstStop = some offset := by
  obtain ⟨⟨makers, hmakers, hall⟩, -⟩ := Css.spliceOffsets_of_familyUses h.read h.finds
  obtain ⟨declaration, hdeclaration, hmade, -⟩ := Css.exists_of_forall₂ hall hmem
  exact ⟨declaration, hmakers.subset hdeclaration, hmade, hmade.value hoffset⟩

/-- Two declarations around the same place are one. -/
theorem eq_of_inside (h : Survey css customProperties nodes declared uses)
    {first second : Declaration} (hfirst : first ∈ Css.declarationsIn none nodes)
    (hsecond : second ∈ Css.declarationsIn none nodes)
    (hinside : first.span.start < offset ∧ offset ≤ first.span.stop)
    (hinside' : second.span.start < offset ∧ offset ≤ second.span.stop) : first = second := by
  by_contra hne
  have hsymm : Std.Symm fun a b : Declaration =>
      a.span.stop ≤ b.span.start ∨ b.span.stop ≤ a.span.start := ⟨fun _ _ => Or.symm⟩
  have happart : (Css.declarationsIn none nodes).Pairwise fun a b =>
      a.span.stop ≤ b.span.start ∨ b.span.stop ≤ a.span.start :=
    (Css.Sheet.declarations_of_ofText? h.read).ordered.imp Or.inl
  have := happart.forall hfirst hsecond hne
  omega

/-- A component of a declaration ends inside the declaration. -/
theorem stop_inside (h : Survey css customProperties nodes declared uses)
    (hmem : declaration ∈ Css.declarationsIn none nodes) {components : List Component}
    (hvalue : declaration.value = .components components) {component : Component}
    (hcomponent : component ∈ components) :
    declaration.span.start < component.span.stop ∧ component.span.stop ≤ declaration.span.stop := by
  have hfrom := (Css.Sheet.declarations_of_ofText? h.read).readFrom declaration hmem
  obtain ⟨begun, last, hreading, -, hstart, hstop⟩ := hfrom.components_inside hvalue
  have hwithin := hreading.within component hcomponent
  exact ⟨hstart.trans hwithin.1, hwithin.2.trans hstop⟩

/-- The declaration in which a component ends where names are placed makes the use that places
them. -/
theorem madeBy_of_stop (h : Survey css customProperties nodes declared uses)
    (hmem : declaration ∈ Css.declarationsIn none nodes) {components : List Component}
    (hvalue : declaration.value = .components components) {component : Component}
    (hcomponent : component ∈ components) (huse : use ∈ uses)
    (hoffset : use.spliceAt = some component.span.stop) : use.MadeBy declared declaration := by
  obtain ⟨maker, hmaker, hmade, others, hothers, hstop⟩ := h.maker huse hoffset
  have hmaker : maker ∈ Css.declarationsIn none nodes :=
    (Css.sublist_filterMap (fun _ _ => Css.declaration?_of_using?) _).subset hmaker
  obtain ⟨span, leaf, hleaf, -, hspan⟩ := NamedFamilies.exists_of_firstStop hstop
  have hinside := h.stop_inside hmaker hothers hleaf
  rw [Component.span, hspan] at hinside
  rwa [h.eq_of_inside hmem hmaker (h.stop_inside hmem hvalue hcomponent) hinside]

/-- Where a name ends in the value of a declaration, no other component ends. -/
theorem apart (h : Survey css customProperties nodes declared uses)
    (hmem : declaration ∈ Css.declarationsIn none nodes) {front back : List Component}
    {span : Css.Span} {leaf : Css.Token}
    (hvalue : declaration.value = .components (front ++ .token span leaf :: back))
    (hleaf : NamedFamilies.NamesFamily leaf) :
    ∀ other ∈ front ++ back, other.span.stop ≠ span.stop := by
  have hfrom := (Css.Sheet.declarations_of_ofText? h.read).readFrom declaration hmem
  obtain ⟨begun, last, hreading, -⟩ := hfrom.components_inside hvalue
  exact hreading.stop_ne (by obtain ⟨text, rfl | rfl⟩ := hleaf <;> nofun)

/-- A declaration that makes a use has one component that ends at the place of the use. -/
theorem exists_place (h : Survey css customProperties nodes declared uses)
    (hmem : declaration ∈ Css.declarationsIn none nodes)
    (hmade : use.MadeBy declared declaration) (hoffset : use.spliceAt = some offset) :
    ∃ front span leaf back,
      declaration.value = .components (front ++ .token span leaf :: back) ∧
        NamedFamilies.NamesFamily leaf ∧ span.stop = offset ∧
        ∀ other ∈ front ++ back, other.span.stop ≠ span.stop := by
  obtain ⟨components, hvalue, hstop⟩ := hmade.value hoffset
  obtain ⟨span, leaf, hleaf, hnames, hspan⟩ := NamedFamilies.exists_of_firstStop hstop
  obtain ⟨front, back, rfl⟩ := List.append_of_mem hleaf
  exact ⟨front, span, leaf, back, hvalue, hnames, hspan, h.apart hmem hvalue hnames⟩

end Survey

/-- What is found in a stylesheet, and calls for some of its uses. -/
structure Answered (css : String) (customProperties : Bool) (nodes : List Node) (declared : Names)
    (uses : List FamilyUse) (calls : List Call) : Prop
    extends Survey css customProperties nodes declared uses where
  asked : ∀ call ∈ calls, call.use ∈ uses
  apart : (calls.filterMap (·.use.spliceAt)).Nodup

theorem Survey.answered {css : String} {customProperties : Bool} {nodes : List Node}
    {declared : Names} {uses : List FamilyUse}
    (h : Survey css customProperties nodes declared uses) (lookups : Lookups) :
    Answered css customProperties nodes declared uses (lookups.calls uses) where
  toSurvey := h
  asked _ := Lookups.use_of_mem_calls
  apart := lookups.nodup_spliceAt_calls <|
    (Css.spliceOffsets_of_familyUses h.read h.finds).2.imp Nat.ne_of_lt

namespace Answered

variable {css : String} {customProperties : Bool} {nodes : List Node} {declared : Names}
  {uses : List FamilyUse} {calls : List Call} {call : Call} {declaration : Declaration}

/-- A declaration stays as it is if no call places names for it. -/
theorem splice_of_no_call (h : Answered css customProperties nodes declared uses calls)
    (hmem : declaration ∈ Css.declarationsIn none nodes)
    (hnone : ∀ call ∈ calls, call.use.MadeBy declared declaration → call.use.spliceAt = none) :
    declaration.splice (Draft.namesAt calls) = declaration.bare := by
  refine Css.Declaration.splice_of_nil fun components hvalue component hcomponent => ?_
  by_contra hne
  obtain ⟨call, hcall, hoffset⟩ := Draft.exists_call_of_namesAt_ne_nil hne
  have hmade := h.madeBy_of_stop hmem hvalue hcomponent (h.asked call hcall) hoffset
  rw [hnone call hcall hmade] at hoffset
  cases hoffset

/-- In a declaration that uses a family, the names of a call for this use stand right behind the
last token of the family. -/
theorem splice_of_madeBy (h : Answered css customProperties nodes declared uses calls)
    (hmem : declaration ∈ Css.declarationsIn none nodes) (hcall : call ∈ calls)
    (hmade : call.use.MadeBy declared declaration) {offset : Nat}
    (hoffset : call.use.spliceAt = some offset) :
    NamesBehind declaration offset call.fallbackNames
      (declaration.splice (Draft.namesAt calls)) := by
  obtain ⟨front, span, leaf, back, hvalue, hleaf, hspan, hapart⟩ :=
    h.exists_place hmem hmade hoffset
  have hnone : ∀ other ∈ front ++ back, Draft.namesAt calls other.span.stop = [] := by
    intro other hother
    by_contra hne
    obtain ⟨call', hcall', hoffset'⟩ := Draft.exists_call_of_namesAt_ne_nil hne
    have hmade' := h.madeBy_of_stop hmem hvalue (by grind) (h.asked call' hcall') hoffset'
    rw [hmade'.unique hmade, hoffset, ← hspan] at hoffset'
    exact hapart other hother (Option.some.inj hoffset').symm
  refine ⟨front, span, leaf, back, hvalue, hleaf, hspan, ?_⟩
  rw [Css.Declaration.splice, hvalue, Css.Value.splice, Component.splice_of_one hnone,
    Component.span, hspan, Draft.namesAt_of_mem h.apart hcall hoffset]

end Answered

/-! ### The rules that are inserted -/

namespace Draft.Call

/-- A line feed in the name of a family gets into a rule. -/
def Breaks (call : Call) : Prop :=
  '\n' ∈ call.use.family.toList ∧ (call.family.faces ≠ [] ∨ call.family.fallbacks ≠ [])

/-- The rules of a call, by their descriptors. -/
def descriptors (directory : Option String) (call : Call) : List (List (String × String)) :=
  call.family.descriptors directory call.use.family

theorem descriptors_ne_nil_iff {directory : Option String} {call : Call} :
    call.descriptors directory ≠ [] ↔ call.family.faces ≠ [] ∨ call.family.fallbacks ≠ [] := by
  simp only [descriptors, Family.descriptors, ne_eq, List.append_eq_nil_iff, List.map_eq_nil_iff,
    not_and_or]

theorem rules_eq_render (directory : Option String) (call : Call) :
    call.rules directory = (call.descriptors directory).map Rule.render :=
  rules_eq ..

/-- The names of fallback families hold no line feed, unless it gets into a rule. -/
theorem not_mem_of_mem_fallbackNames {call : Call} (hplain : call.family.Plain) {name : String}
    (hname : name ∈ call.fallbackNames) (hbreak : ¬ call.Breaks) : '\n' ∉ name.toList := by
  obtain ⟨installed, hinstalled, rfl⟩ := List.mem_map.mp hname
  rw [mem_fallbackName_iff (hplain.2 installed hinstalled)]
  exact fun hmem => hbreak ⟨hmem, .inr (List.ne_nil_of_mem hinstalled)⟩

end Draft.Call

theorem exists_map_eq {α β : Type} {f : α → β} {p : α → Prop} {bs : List β}
    (h : ∀ b ∈ bs, ∃ a, f a = b ∧ p a) : ∃ as : List α, as.map f = bs ∧ ∀ a ∈ as, p a := by
  induction bs with
  | nil => exact ⟨[], rfl, nofun⟩
  | cons b bs ih =>
    obtain ⟨a, rfl, ha⟩ := h b (List.mem_cons_self ..)
    obtain ⟨as, rfl, hothers⟩ := ih fun other hmem => h other (List.mem_cons_of_mem _ hmem)
    exact ⟨a :: as, rfl, List.forall_mem_cons.mpr ⟨ha, hothers⟩⟩

/-- The rules that are inserted for some calls, by their descriptors. -/
structure Lead (directory : Option String) (calls : List Call)
    (rules : List (List (String × String))) : Prop where
  rendered : rules.map Rule.render = Draft.leadRules directory calls
  brought : ∀ descriptors ∈ rules, ∃ call ∈ calls, descriptors ∈ call.descriptors directory

namespace Lead

variable {directory : Option String} {calls : List Call} {call : Call}
  {rules : List (List (String × String))} {descriptors : List (String × String)}

theorem exists_lead (directory : Option String) (calls : List Call) :
    ∃ rules, Lead directory calls rules := by
  obtain ⟨rules, hrendered, hbrought⟩ := exists_map_eq (f := Rule.render)
    (p := fun descriptors => ∃ call ∈ calls, descriptors ∈ call.descriptors directory) <| by
    intro rule hrule
    obtain ⟨call, hcall, hmem⟩ := Draft.mem_leadRules.mp hrule
    rw [Call.rules_eq_render] at hmem
    obtain ⟨descriptors, hdescriptors, rfl⟩ := List.mem_map.mp hmem
    exact ⟨descriptors, rfl, call, hcall, hdescriptors⟩
  exact ⟨rules, hrendered, hbrought⟩

/-- Every rule of a call is inserted. -/
theorem render_mem (h : Lead directory calls rules) (hcall : call ∈ calls)
    (hmem : descriptors ∈ call.descriptors directory) :
    Rule.render descriptors ∈ rules.map Rule.render := by
  rw [h.rendered, Draft.mem_leadRules]
  refine ⟨call, hcall, ?_⟩
  rw [Call.rules_eq_render]
  exact List.mem_map_of_mem hmem

/-- Every rule that is inserted declares a family. A line feed stands in its name only if one gets
into a rule. -/
theorem declares (h : Lead directory calls rules) (hplain : ∀ call ∈ calls, call.family.Plain)
    (hmem : descriptors ∈ rules) :
    ∃ name, Rule.Declares descriptors name ∧
      ('\n' ∈ name.toList → ∃ call ∈ calls, call.Breaks) := by
  obtain ⟨call, hcall, hbrought⟩ := h.brought descriptors hmem
  obtain ⟨name, hdeclares, hname⟩ := (hplain call hcall).declares hbrought
  refine ⟨name, hdeclares, fun hbreak => ⟨call, hcall, hname.mp hbreak, ?_⟩⟩
  rw [← Call.descriptors_ne_nil_iff]
  exact List.ne_nil_of_mem hbrought

end Lead

/-! ### The text of a revised stylesheet -/

/-- Whether generated rules are inserted as they are. -/
def Options.KeepsRules (options : Options) : Prop :=
  options.dev = true ∨ options.minify = none

theorem exists_gap {tools : Tools} {options : Options} (h : options.KeepsRules) :
    ∃ gap, (gap = "" ∨ gap = "\n") ∧ tools.finish options = fun rule => rule ++ gap := by
  unfold Tools.finish
  by_cases hdev : options.dev = true
  · exact ⟨"\n", .inr rfl, by simp [hdev]⟩
  · have hminify := h.resolve_left hdev
    exact ⟨"", .inl rfl, by simp [hdev, hminify]⟩

theorem toList_join_lines (gap : String) (rules : List (List (String × String))) :
    (String.join ((rules.map Rule.render).map fun rule => rule ++ gap)).toList =
      Rule.lines gap rules := by
  induction rules with
  | nil => rfl
  | cons descriptors rules ih =>
    rw [List.map_cons, List.map_cons, String.join_cons, String.toList_append, String.toList_append,
      ih, lines_cons, List.append_assoc]

/-- The nodes of a revised stylesheet: those of the rules that are inserted, and behind them those
of the stylesheet with the names of fallback families. -/
def Rewrites (directory : Option String) (calls : List Call) (nodes nodes' : List Node) : Prop :=
  ∃ rules generated, Lead directory calls rules ∧
    List.Forall₂ Css.IsFontFace rules generated ∧
    Css.bareIn nodes' = generated ++ Css.spliceIn (Draft.namesAt calls) nodes

section Render

variable {tools : Tools} {options : Options} {css : String} {nodes : List Node}
  {declared : Names} {uses : List FamilyUse} {calls : List Call} {overlay : Overlay}

/-- The text of a revised stylesheet: the rules that were generated, and the stylesheet with names
woven in. -/
theorem Inserts.toList_render (h : Inserts tools options css calls overlay)
    (hkeeps : options.KeepsRules)
    (hanswered : Answered css options.customProperties nodes declared uses calls)
    {rules : List (List (String × String))} (hlead : Lead options.directory calls rules) :
    ∃ gap, (gap = "" ∨ gap = "\n") ∧ overlay.render.toList =
      Rule.lines gap rules ++ Css.weaveNames (Draft.namesAt calls) 0 css.toList := by
  obtain ⟨gap, hgap, hfinish⟩ := exists_gap hkeeps
  have hinserted (offset : Nat) : (overlay.insertedAt offset).toList =
      Css.spell (Css.listing (Draft.namesAt calls offset)) := by
    rw [h.inserted, Css.spell_listing]
  have hfirst : Draft.namesAt calls 0 = [] := by
    by_contra hne
    obtain ⟨call, hcall, hoffset⟩ := Draft.exists_call_of_namesAt_ne_nil hne
    obtain ⟨⟨makers, -, hall⟩, -⟩ :=
      Css.spliceOffsets_of_familyUses hanswered.read hanswered.finds
    obtain ⟨maker, -, -, hinside⟩ := Css.exists_of_forall₂ hall (hanswered.asked call hcall)
    exact absurd (hinside 0 hoffset).behind_start (Nat.not_lt_zero _)
  refine ⟨gap, hgap, ?_⟩
  rw [Overlay.render, String.toList_append, String.toList_ofList, h.source, h.lead,
    Draft.finishedText, hfinish, ← hlead.rendered, toList_join_lines,
    Css.weave_eq_weaveNames hinserted, hfirst]
  rfl

/-- The places at which names are woven in belong to the declarations of the stylesheet. -/
theorem Answered.owned (h : Answered css options.customProperties nodes declared uses calls)
    (hplain : ∀ call ∈ calls, call.family.Plain) (hurl : UrlFree css options.customProperties)
    (hbreak : ∀ call ∈ calls, ¬ call.Breaks) :
    Css.Owned (Draft.namesAt calls) 0 (size css.toList) (Css.declarationsIn none nodes) := by
  intro offset _ _ hne
  obtain ⟨call, hcall, hoffset⟩ := Draft.exists_call_of_namesAt_ne_nil hne
  have huse := h.asked call hcall
  obtain ⟨maker, hmaker, hmade, components, hvalue, hstop⟩ := h.maker huse hoffset
  have hfree := hurl nodes declared uses h.toSurvey maker hmaker call.use huse hmade
  rw [hvalue] at hfree
  have hmem : maker ∈ Css.declarationsIn none nodes :=
    (Css.sublist_filterMap (fun _ _ => Css.declaration?_of_using?) _).subset hmaker
  refine ⟨maker, hmem, components, hvalue, hfree, hstop, fun name hname => ?_⟩
  obtain ⟨call, hcall, -, hname⟩ := Draft.mem_namesAt.mp hname
  exact Call.not_mem_of_mem_fallbackNames (hplain call hcall) hname (hbreak call hcall)

/-- A revised stylesheet is read in front of another text, if it ends with a block or nothing
follows. -/
theorem Inserts.reading_render (h : Inserts tools options css calls overlay)
    (hplain : ∀ call ∈ calls, call.family.Plain) (hkeeps : options.KeepsRules)
    (hanswered : Answered css options.customProperties nodes declared uses calls)
    (hurl : UrlFree css options.customProperties) (hbreak : ∀ call ∈ calls, ¬ call.Breaks)
    {rest : List Char} (hrest : rest = [] ∨ Settled nodes) (offset : Nat) :
    ∃ nodes', Reading .top ⟨offset, overlay.render.toList ++ rest⟩ nodes'
        ⟨offset + size overlay.render.toList, rest⟩ ∧
      Rewrites options.directory calls nodes nodes' := by
  obtain ⟨rules, hlead⟩ := Lead.exists_lead options.directory calls
  obtain ⟨gap, hgap, htext⟩ := h.toList_render hkeeps hanswered hlead
  have hdeclares : ∀ descriptors ∈ rules,
      ∃ name, Rule.Declares descriptors name ∧ '\n' ∉ name.toList := by
    intro descriptors hmem
    obtain ⟨name, hdeclares, hname⟩ := hlead.declares hplain hmem
    refine ⟨name, hdeclares, fun hmem => ?_⟩
    obtain ⟨call, hcall, hbreaks⟩ := hname hmem
    exact hbreak call hcall hbreaks
  obtain ⟨generated, hreading, hall⟩ := reading_rules hgap hdeclares offset
    (Css.weaveNames (Draft.namesAt calls) 0 css.toList ++ rest)
  obtain ⟨nodes', hweave, hbare⟩ := Css.Sheet.reading_weaveNames hanswered.read
    (hanswered.owned hplain hurl hbreak) hrest (offset + size (Rule.lines gap rules))
  refine ⟨generated ++ nodes', ?_, rules, Css.bareIn generated, hlead, hall, ?_⟩
  · rw [htext, List.append_assoc, Text.size_append, ← Nat.add_assoc]
    exact hreading.append hweave
  · rw [Css.bareIn, Css.spliceIn_append]
    exact congrArg _ hbare

/-- If a revised stylesheet can be divided into lexemes, no line feed got into a rule. -/
theorem Inserts.not_breaks_of_scans (h : Inserts tools options css calls overlay)
    (hplain : ∀ call ∈ calls, call.family.Plain) (hkeeps : options.KeepsRules)
    (hanswered : Answered css options.customProperties nodes declared uses calls)
    {cur last : Css.Cursor} {rest : List Char} (hscans : cur.Scans last) (hlast : last.rest = [])
    (hrest : cur.rest = overlay.render.toList ++ rest) : ∀ call ∈ calls, ¬ call.Breaks := by
  rintro call hcall ⟨hbreak, hne⟩
  obtain ⟨rules, hlead⟩ := Lead.exists_lead options.directory calls
  obtain ⟨gap, hgap, htext⟩ := h.toList_render hkeeps hanswered hlead
  rw [htext, List.append_assoc] at hrest
  have hbrings : call.descriptors options.directory ≠ [] := Call.descriptors_ne_nil_iff.mpr hne
  obtain ⟨descriptors, hmem⟩ := List.exists_mem_of_ne_nil _ hbrings
  obtain ⟨name, hdeclares, hname⟩ := (hplain call hcall).declares hmem
  refine not_mem_of_scans_rules hgap (fun other hother => ?_) hscans hlast hrest hdeclares
    (hlead.render_mem hcall hmem) (hname.mpr hbreak)
  obtain ⟨shown, hshown, -⟩ := hlead.declares hplain hother
  exact ⟨shown, hshown⟩

end Render

/-- Every answer to a lookup is plain. -/
def Lookups.Plain (lookups : Lookups) : Prop :=
  ∀ uses, ∀ reply ∈ lookups.replies uses, ∀ family, reply.answer = .found family → family.Plain

/-- Every answer of a resolver is plain. -/
def Reviser.Plain (reviser : Reviser) : Prop :=
  ∀ family request answer, reviser.resolver family request = .found answer → answer.Plain

theorem Reviser.Plain.of_follow {reviser : Reviser} {lookups : Lookups} (h : reviser.Plain)
    (hfollow : lookups.Follow reviser.resolver) : lookups.Plain := by
  intro uses reply hreply family hanswer
  rw [hfollow uses reply hreply] at hanswer
  exact h _ _ family hanswer

theorem Lookups.Plain.of_mem_calls {lookups : Lookups} (h : lookups.Plain)
    (uses : List FamilyUse) : ∀ call ∈ lookups.calls uses, call.family.Plain := by
  intro call hcall
  obtain ⟨reply, hreply, -, hanswer⟩ := exists_reply_of_mem_calls hcall
  exact h uses reply hreply call.family hanswer

namespace Reviser

/-- A revision changes nothing but what it inserts, also when its result is read again. If answers
are plain, rules are inserted as they are generated and no address stands in a declaration that
uses a family, then the result of a revision is read as the rules that were generated and the nodes
of the stylesheet. In a declaration that uses a family the names of the fallback families stand
right behind the last token of this family, and every other declaration stays as it is.

This fails exactly if a family that brings rules has a line feed in its name: the result is not read
at all then. -/
theorem revise_reads_back {reviser : Reviser} {lookups : Lookups} {options : Options}
    {css : String} {overlay : Overlay} {registry registry' : Registry} (hplain : lookups.Plain)
    (hkeeps : options.KeepsRules) (hurl : UrlFree css options.customProperties)
    (h : reviser.reviseBy lookups options css registry = (registry', .ok overlay)) :
    ∃ nodes declared uses, Survey css options.customProperties nodes declared uses ∧
      let calls := lookups.calls uses
      ((∀ call ∈ calls, ¬ call.Breaks) →
        (∃ nodes', Css.Sheet.ofText? overlay.render = .ok nodes' ∧
          Rewrites options.directory calls nodes nodes') ∧
        ∀ declaration ∈ Css.declarationsIn none nodes,
          (∀ call ∈ calls, call.use.MadeBy declared declaration → ∀ offset,
            call.use.spliceAt = some offset →
              NamesBehind declaration offset call.fallbackNames
                (declaration.splice (Draft.namesAt calls))) ∧
          ((∀ call ∈ calls, call.use.MadeBy declared declaration → call.use.spliceAt = none) →
            declaration.splice (Draft.namesAt calls) = declaration.bare)) ∧
      ((∃ call ∈ calls, call.Breaks) →
        ∃ fault, Css.Sheet.ofText? overlay.render = .error fault) := by
  obtain ⟨uses, huses, hinserts, -⟩ := reviseBy_eq_ok h
  obtain ⟨nodes, declared, hsurvey⟩ := exists_survey huses
  have hanswered := hsurvey.answered lookups
  have hplain := hplain.of_mem_calls uses
  refine ⟨nodes, declared, uses, hsurvey, fun hbreak => ⟨?_, fun declaration hmem => ⟨?_, ?_⟩⟩, ?_⟩
  · obtain ⟨nodes', hreading, hrewrites⟩ := hinserts.reading_render hplain hkeeps hanswered hurl
      hbreak (.inl rfl) 0
    rw [List.append_nil] at hreading
    exact ⟨nodes', Css.Sheet.ofText?_eq_ok_iff.mpr ⟨_, hreading, rfl⟩, hrewrites⟩
  · exact fun call hcall hmade offset => hanswered.splice_of_madeBy hmem hcall hmade
  · exact hanswered.splice_of_no_call hmem
  · rintro ⟨call, hcall, hbreaks⟩
    cases hread : Css.Sheet.ofText? overlay.render with
    | error fault => exact ⟨fault, rfl⟩
    | ok nodes' =>
      obtain ⟨last, hreading, hend⟩ := Css.Sheet.ofText?_eq_ok_iff.mp hread
      exact absurd hbreaks (hinserts.not_breaks_of_scans hplain hkeeps hanswered hreading.scans
        hend (List.append_nil _).symm call hcall)

/-- A reviser to which one face and one fallback family of every family are known. -/
def ofOneFace : Reviser where
  resolver _ _ := .found ⟨[.ofSources [.url "/f.woff2" (some "woff2") none]], ["Arial"], none⟩
  tools := ⟨.passthrough, .never⟩
  hasExecutor := true

theorem plain_ofOneFace : ofOneFace.Plain := by
  intro family request answer h
  cases h
  refine ⟨fun face hface => ?_, fun installed hinstalled => ?_⟩
  · obtain rfl := List.mem_singleton.mp hface
    refine ⟨rfl, fun source hsource => ?_⟩
    obtain rfl := List.mem_singleton.mp hsource
    refine ⟨by decide +kernel, fun text htext => ?_, rfl⟩
    cases htext
    decide +kernel
  · obtain rfl := List.mem_singleton.mp hinstalled
    decide +kernel

/-- The conditions under which a stylesheet that uses families is read back can be checked. -/
theorem urlFree_of_all {css : String} {customProperties : Bool}
    (h : ((Css.Sheet.ofText? css).map fun nodes =>
      ((Css.visits nodes).filterMap (Css.Visit.using? customProperties)).all
        fun declaration => !declaration.value.hasUrl) = .ok true) :
    UrlFree css customProperties := by
  intro nodes declared uses hsurvey declaration hmem _ _ _
  rw [hsurvey.read] at h
  have hall := List.all_eq_true.mp (Except.ok.inj h) declaration hmem
  simpa using hall

/-- A shorthand is read back with the name of a fallback family behind the first family. -/
theorem revise_reads_back_of_shorthand :
    ∃ registry overlay nodes declared uses nodes',
      ofOneFace.revise ⟨"a.css", true, false, none, none⟩ "a\x7bfont:1em 'b',serif!important\x7d"
          .empty = (registry, .ok overlay) ∧
        Survey "a\x7bfont:1em 'b',serif!important\x7d" false nodes declared uses ∧
        overlay.render.endsWith "a\x7bfont:1em 'b', \"b Fallback: Arial\",serif!important\x7d" ∧
        Css.Sheet.ofText? overlay.render = .ok nodes' ∧
        Rewrites none ((Lookups.inOrder ofOneFace.resolver).calls uses) nodes nodes' := by
  have hrun : (ofOneFace.revise ⟨"a.css", true, false, none, none⟩
      "a\x7bfont:1em 'b',serif!important\x7d" .empty).2.map (fun overlay =>
        overlay.render.endsWith "a\x7bfont:1em 'b', \"b Fallback: Arial\",serif!important\x7d") =
      .ok true := by
    decide +kernel
  have hfamilies : (usesOf? "a\x7bfont:1em 'b',serif!important\x7d" false).map
      (·.map FamilyUse.family) = .ok ["b"] := by
    decide +kernel
  have hurl : UrlFree "a\x7bfont:1em 'b',serif!important\x7d" false :=
    urlFree_of_all (by decide +kernel)
  generalize hrevise : ofOneFace.revise _ _ _ = outcome at hrun ⊢
  obtain ⟨registry, found⟩ := outcome
  cases found with
  | error fault => cases hrun
  | ok overlay =>
    obtain ⟨nodes, declared, uses, hsurvey, hreads, -⟩ :=
      revise_reads_back (plain_ofOneFace.of_follow (Lookups.follow_inOrder _)) (.inl rfl) hurl
        hrevise
    rw [hsurvey.usesOf?_eq] at hfamilies
    have hlist : uses.map FamilyUse.family = ["b"] := Except.ok.inj hfamilies
    have hnone : ∀ call ∈ (Lookups.inOrder ofOneFace.resolver).calls uses, ¬ call.Breaks := by
      rintro call hcall ⟨hbreak, -⟩
      have hfamily : call.use.family ∈ uses.map FamilyUse.family :=
        List.mem_map_of_mem (Lookups.use_of_mem_calls hcall)
      rw [hlist, List.mem_singleton] at hfamily
      rw [hfamily] at hbreak
      exact absurd hbreak (by decide +kernel)
    obtain ⟨⟨nodes', hread, hrewrites⟩, -⟩ := hreads hnone
    exact ⟨registry, overlay, nodes, declared, uses, nodes', rfl, hsurvey, Except.ok.inj hrun,
      hread, hrewrites⟩

/-- A family can have a line feed in its name: the revision of a stylesheet that uses it succeeds,
but its result cannot be read. -/
theorem revise_unreadable_of_line_feed :
    (ofOneFace.revise ⟨"a.css", true, false, none, none⟩ "a\x7bfont-family:\"x\\A y\"\x7d"
      .empty).2.map (fun overlay => (Css.Sheet.ofText? overlay.render).isOk) = .ok false := by
  decide +kernel

end Reviser

end WebFonts
