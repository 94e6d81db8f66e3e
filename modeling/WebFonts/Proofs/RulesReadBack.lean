import WebFonts.Proofs.FirstFamily
import WebFonts.Proofs.FoundFamilies
import WebFonts.Proofs.GeneratedRules

/-!
# What generated rules mean

`rules_read_back`: the rule that is written for a face, or for a local font under another name, is
read as one `@font-face` rule. Its block holds the descriptors in their order, its first declaration
names the one family that the rule declares, and its second one lists the sources.

Names, addresses and formats are any texts without line feeds, since they stand between quotes. The
other texts of a face are written as they are, so that they have to be bland.
-/

namespace WebFonts

namespace Css

open Component (bareAll)
open NamedFamilies (ofDeclaration?)
open Rule (quote)

variable {descriptors : List (String × String)}

/-! ### Declarations and descriptors -/

/-- A declaration renders a descriptor: it has the same name, no mark, and the components that are
read from the value of the descriptor, wherever they stand. -/
def Renders (descriptor : String × String) (declaration : Declaration) : Prop :=
  declaration.property = descriptor.1 ∧ declaration.important = false ∧
    ∃ components alone, declaration.value = .components components ∧
      Component.ofText? descriptor.2 = .ok alone ∧ bareAll components = bareAll alone

theorem renders_of_describes {descriptor : String × String} {declaration : Declaration}
    (h : Describes descriptor declaration.bare) : Renders descriptor declaration := by
  obtain ⟨alone, hread, hbare⟩ := h
  obtain ⟨property, value, important, span⟩ := declaration
  cases value with
  | raw text => cases hbare
  | components components =>
    have hvalue := Value.bare_components components
    unfold Value.bare at hvalue
    simp only [Declaration.bare, Declaration.splice, hvalue, Declaration.mk.injEq,
      Value.components.injEq, and_true] at hbare
    obtain ⟨hproperty, hcomponents, himportant⟩ := hbare
    exact ⟨hproperty, himportant, components, alone, rfl, hread, hcomponents⟩

/-- Nodes that are declarations without their spans are declarations. -/
theorem exists_of_bareIn {nodes : List Node} {declarations : List Declaration}
    (h : bareIn nodes = declarations.map .declaration) :
    ∃ origins : List Declaration, nodes = origins.map .declaration ∧
      origins.map Declaration.bare = declarations := by
  unfold bareIn at h
  induction nodes generalizing declarations with
  | nil =>
    rw [spliceIn, eq_comm, List.map_eq_nil_iff] at h
    exact ⟨[], rfl, h.symm⟩
  | cons node nodes ih =>
    rw [spliceIn, eq_comm, List.map_eq_cons_iff] at h
    obtain ⟨declaration, others, rfl, hnode, hothers⟩ := h
    obtain ⟨origins, rfl, horigins⟩ := ih hothers.symm
    cases node with
    | declaration origin =>
      obtain rfl := Node.declaration.inj hnode
      exact ⟨origin :: origins, rfl, congrArg _ horigins⟩
    | rule | raw => cases hnode
    | atRule name prelude block span => cases block <;> cases hnode

/-- An `@font-face` rule holds one declaration for each of its descriptors. -/
theorem IsFontFace.exists_declarations {node : Node} (h : IsFontFace descriptors node.bare) :
    ∃ declarations span,
      node = .atRule "font-face" "" (some (declarations.map .declaration)) span ∧
        List.Forall₂ Renders descriptors declarations := by
  obtain ⟨declarations, hdescribes, hnode⟩ := h
  cases node with
  | rule | declaration | raw => cases hnode
  | atRule name prelude block span =>
    cases block with
    | none => cases hnode
    | some children =>
      rw [Node.bare, Node.splice] at hnode
      simp only [Node.atRule.injEq, Option.some.injEq, and_true] at hnode
      obtain ⟨rfl, rfl, hchildren⟩ := hnode
      obtain ⟨origins, rfl, rfl⟩ := exists_of_bareIn hchildren
      refine ⟨origins, span, rfl, ?_⟩
      exact (List.forall₂_map_right_iff.mp hdescribes).imp fun _ _ => renders_of_describes

/-- Rendered descriptors are read as one rule. -/
theorem Sheet.ofText?_render (hne : descriptors ≠ []) (h : Readable descriptors) :
    ∃ declarations span, ofText? (Rule.render descriptors) =
        .ok [.atRule "font-face" "" (some (declarations.map .declaration)) span] ∧
      List.Forall₂ Renders descriptors declarations := by
  obtain ⟨node, hreading, hface⟩ := reading_render hne h 0 []
  rw [List.append_nil] at hreading
  obtain ⟨declarations, span, rfl, hrenders⟩ := hface.exists_declarations
  exact ⟨declarations, span, ofText?_eq_ok_iff.mpr ⟨_, hreading, rfl⟩, hrenders⟩

/-- The declaration that renders a quoted name names this family only. -/
theorem Renders.families {name : String} {declaration : Declaration} (hname : '\n' ∉ name.toList)
    (h : Renders ("font-family", quote name) declaration) :
    ∃ families, ofDeclaration? declaration = .ok families ∧ families.names = [name] ∧
      families.generic = none := by
  obtain ⟨hproperty, -, components, alone, hvalue, hread, hbare⟩ := h
  obtain ⟨span, hlegible⟩ := legible_quote hname
  obtain rfl : alone = [.token span (.string name)] :=
    Except.ok.inj (hread.symm.trans hlegible.read)
  obtain ⟨hnames, hgeneric⟩ := NamedFamilies.ofValue_of_bare "font-family" hbare
  refine ⟨NamedFamilies.ofValue "font-family" components, ?_, hnames, hgeneric⟩
  unfold ofDeclaration?
  rw [hvalue, hproperty]

/-! ### Rules -/

/-- A text is read as one `@font-face` rule, which renders some descriptors. It declares exactly one
family, the one that its first declaration names, and the second declaration lists some sources. -/
def ReadsBack (css : String) (descriptors : List (String × String)) (family : String)
    (sources : List Component) : Prop :=
  ∃ (naming listing : Declaration) (others : List Declaration) (span : Span),
    let rule : Node :=
      .atRule "font-face" "" (some ((naming :: listing :: others).map .declaration)) span
    Sheet.ofText? css = .ok [rule] ∧
      List.Forall₂ Renders descriptors (naming :: listing :: others) ∧
      naming.property = "font-family" ∧
      (∃ families, ofDeclaration? naming = .ok families ∧ families.names = [family] ∧
        families.generic = none) ∧
      listing.property = "src" ∧
      (∃ components, listing.value = .components components ∧ bareAll components = sources) ∧
      declaredNames [rule] = .ok (.ofList [family])

/-- A rule is read back if its descriptors can be read, of which only the first is named
`font-family`. -/
theorem readsBack_render {family value : String} {others : List (String × String)}
    {components : List Component} (hfamily : '\n' ∉ family.toList)
    (hvalue : Legible value.toList components)
    (hreadable : Readable (("font-family", quote family) :: ("src", value) :: others))
    (hothers : ∀ descriptor ∈ others, descriptor.1 ≠ "font-family") :
    ReadsBack (Rule.render (("font-family", quote family) :: ("src", value) :: others))
      (("font-family", quote family) :: ("src", value) :: others) family (bareAll components) := by
  obtain ⟨declarations, span, hread, hrenders⟩ := Sheet.ofText?_render (by simp) hreadable
  obtain ⟨naming, behind, hnaming, hbehind, rfl⟩ := List.forall₂_cons_left_iff.mp hrenders
  obtain ⟨listing, declarations, hlisting, hrest, rfl⟩ := List.forall₂_cons_left_iff.mp hbehind
  obtain ⟨families, hfamilies, hnames, hgeneric⟩ := hnaming.families hfamily
  refine ⟨naming, listing, declarations, span, hread, hrenders, hnaming.1,
    ⟨families, hfamilies, hnames, hgeneric⟩, hlisting.1, ?_, ?_⟩
  · obtain ⟨-, -, found, alone, hfound, halone, hbare⟩ := hlisting
    obtain rfl := Except.ok.inj (hvalue.read.symm.trans halone)
    exact ⟨found, hfound, hbare⟩
  · -- no other declaration names a family
    have hnone : declarations.filter (·.property == "font-family") = [] := by
      rw [List.filter_eq_nil_iff]
      intro declaration hmem
      obtain ⟨descriptor, hdescriptor, hrenders⟩ := exists_of_forall₂ hrest.flip hmem
      rw [beq_iff_eq, hrenders.1]
      exact hothers descriptor hdescriptor
    have hfilter : (naming :: listing :: declarations).filter (·.property == "font-family") =
        [naming] := by
      simp [hnaming.1, hlisting.1, hnone]
    have hnamings :
        namings [.atRule "font-face" ""
          (some ((naming :: listing :: declarations).map .declaration)) span] = [naming] :=
      (namings_fontFace "").trans hfilter
    unfold namings at hnamings
    rw [declaredNames, hnamings]
    simp [hfamilies, hnames]

end Css

open Css (ReadsBack legible_quote)

/-- What is written for a face with plain sources and bland texts is read back as the rule of this
face, and what is written for a local font under another name as the rule of this font. -/
theorem rules_read_back :
    (∀ (family : String) (face : Face) (directory : Option String), '\n' ∉ family.toList →
      (∀ source ∈ face.sources, source.Plain) → face.Bland →
        ReadsBack (face.rule family directory) (face.descriptors family directory) family
          (Source.list directory face.sources)) ∧
    ∀ (name installed : String) (web : Option Metrics), '\n' ∉ name.toList →
      '\n' ∉ installed.toList →
        ReadsBack (fallbackRule name installed web) (fallbackDescriptors name installed web) name
          (Source.list none [.installed installed]) := by
  constructor
  · intro family face directory hfamily hsources hbland
    obtain ⟨components, hlist, hcomponents⟩ := legible_sources hsources directory
    rw [← hcomponents]
    refine Css.readsBack_render hfamily hlist (face.readable hsources hbland hfamily directory) ?_
    refine List.forall_mem_cons.mpr ⟨by simp, fun descriptor hmem => ?_⟩
    obtain ⟨⟨name, value⟩, hentry, hsome⟩ := List.mem_filterMap.mp hmem
    obtain ⟨text, rfl, rfl⟩ := Option.map_eq_some_iff.mp hsome
    rintro rfl
    simp at hentry
  · intro name installed web hname hinstalled
    have hplain : ∀ source ∈ [Source.installed installed], source.Plain :=
      fun source hmem => List.mem_singleton.mp hmem ▸ hinstalled
    obtain ⟨components, hlist, hcomponents⟩ := legible_sources hplain none
    rw [List.map_singleton, String.intercalate_singleton] at hlist
    rw [← hcomponents]
    refine Css.readsBack_render hname hlist (readable_fallbackDescriptors hname hinstalled web) ?_
    split <;> simp [Overrides.descriptors]

/-- A face with two sources, a range of weights and of characters, and blanks around its display. -/
def Face.braced : Face :=
  { Face.ofSources [.url "/a\"\x7b;\x7d/*" (some "woff2") none, .installed "B)\\"] with
    display := some " swap  "
    weight := some (.range "100" "900")
    unicodeRange := some "U+0-FF, U+4??" }

/-- Quotes, braces, semicolons and comment openers stand in the texts of a face. -/
theorem rules_read_back_of_braces :
    '\n' ∉ "F\";\x7d".toList ∧ (∀ source ∈ Face.braced.sources, source.Plain) ∧ Face.braced.Bland ∧
      '\n' ∉ "B)\\".toList ∧
      ReadsBack (Face.braced.rule "F\";\x7d" (some "/css"))
        [("font-family", "\"F\\\";\x7d\""),
          ("src", "url(\"../a\\\"\x7b;\x7d/*\") format(\"woff2\"), local(\"B)\\\\\")"),
          ("font-display", " swap  "), ("font-weight", "100 900"),
          ("unicode-range", "U+0-FF, U+4??")]
        "F\";\x7d"
        [.token ⟨0, 0⟩ (.url "../a\"\x7b;\x7d/*"),
          .function ⟨0, 0⟩ "format" [.token ⟨0, 0⟩ (.string "woff2")], .token ⟨0, 0⟩ .comma,
          .function ⟨0, 0⟩ "local" [.token ⟨0, 0⟩ (.string "B)\\")]] ∧
      ReadsBack (fallbackRule "F\";\x7d" "B)\\" none)
        [("font-family", "\"F\\\";\x7d\""), ("src", "local(\"B)\\\\\")")] "F\";\x7d"
        [.function ⟨0, 0⟩ "local" [.token ⟨0, 0⟩ (.string "B)\\")]] := by
  have hfamily : '\n' ∉ "F\";\x7d".toList := by decide +kernel
  have hinstalled : '\n' ∉ "B)\\".toList := by decide +kernel
  have hsources : ∀ source ∈ Face.braced.sources, source.Plain := by
    refine List.forall_mem_cons.mpr ⟨⟨by decide +kernel, ?_, rfl⟩,
      List.forall_mem_singleton.mpr hinstalled⟩
    rintro text ⟨⟩
    decide +kernel
  have hbland : Face.braced.Bland := by
    have hall : Face.braced.texts.all (fun text => text.toList.all Css.isBland) = true := by
      decide +kernel
    intro text hmem
    exact List.all_eq_true.mp (List.all_eq_true.mp hall text hmem)
  obtain ⟨hfaces, hfallbacks⟩ := rules_read_back
  have hface := hfaces _ Face.braced (some "/css") hfamily hsources hbland
  have hfallback := hfallbacks _ _ none hfamily hinstalled
  have hdescriptors : Face.braced.descriptors "F\";\x7d" (some "/css") =
      [("font-family", "\"F\\\";\x7d\""),
        ("src", "url(\"../a\\\"\x7b;\x7d/*\") format(\"woff2\"), local(\"B)\\\\\")"),
        ("font-display", " swap  "), ("font-weight", "100 900"),
        ("unicode-range", "U+0-FF, U+4??")] := by
    decide +kernel
  have hdescriptors' : fallbackDescriptors "F\";\x7d" "B)\\" none =
      [("font-family", "\"F\\\";\x7d\""), ("src", "local(\"B)\\\\\")")] := by
    decide +kernel
  have haddress : Rule.relativeTo "/css" "/a\"\x7b;\x7d/*" = "../a\"\x7b;\x7d/*" := by
    decide +kernel
  have hlist : Source.list (some "/css") Face.braced.sources =
      [.token ⟨0, 0⟩ (.url "../a\"\x7b;\x7d/*"),
        .function ⟨0, 0⟩ "format" [.token ⟨0, 0⟩ (.string "woff2")], .token ⟨0, 0⟩ .comma,
        .function ⟨0, 0⟩ "local" [.token ⟨0, 0⟩ (.string "B)\\")]] := by
    rw [← haddress]
    rfl
  rw [hdescriptors, hlist] at hface
  rw [hdescriptors'] at hfallback
  exact ⟨hfamily, hsources, hbland, hinstalled, hface, hfallback⟩

end WebFonts
