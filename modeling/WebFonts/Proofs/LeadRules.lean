import WebFonts.Revision.Draft
import WebFonts.Proofs.GeneratedRules
import WebFonts.Proofs.Scanning

/-!
# Generated rules in front of a stylesheet

Each rule that a family brings declares a name: that of the family, or that of a fallback family
(`Family.Plain.declares`). Such rules are read back in front of any text (`reading_rules`), and each
as the `@font-face` rule that it was generated as, if no line feed stands in a name. Otherwise the
text cannot be divided into lexemes (`not_mem_of_scans_rules`).
-/

namespace WebFonts

open Css (IsFontFace Readable)
open Css.Cursor (Reads)
open Css.Sheet (Reading)
open Rule (quote)
open Text (size)

/-! ### The names that rules declare -/

/-- The descriptors of the rules for a family. -/
def Family.descriptors (directory : Option String) (name : String) (family : Family) :
    List (List (String × String)) :=
  (family.faces.map fun face => face.descriptors name directory) ++
    family.fallbacks.map fun installed =>
      fallbackDescriptors (fallbackName name installed) installed family.metrics

theorem rules_eq (directory : Option String) (name : String) (family : Family) :
    Draft.rules directory name family = (family.descriptors directory name).map Rule.render := by
  simp only [Draft.rules, Family.descriptors, List.map_append, List.map_map]
  rfl

/-- The first descriptor of a rule declares a family. The rule can be read unless a line feed stands
in the name. -/
structure Rule.Declares (descriptors : List (String × String)) (name : String) : Prop where
  head : descriptors.head? = some ("font-family", quote name)
  readable : '\n' ∉ name.toList → Readable descriptors

theorem mem_fallbackName_iff {name installed : String} (h : '\n' ∉ installed.toList) :
    '\n' ∈ (fallbackName name installed).toList ↔ '\n' ∈ name.toList := by
  have htext : (fallbackName name installed).toList =
      name.toList ++ (" Fallback: ".toList ++ installed.toList) := by
    rw [← String.toList_append, ← String.toList_append, ← String.append_assoc]
    rfl
  have hmiddle : '\n' ∉ " Fallback: ".toList := by decide +kernel
  simp only [htext, List.mem_append, h, hmiddle, or_false]

/-- The rules for a family declare the family and its fallback families. -/
theorem Family.Plain.declares {family : Family} {name : String} {directory : Option String}
    {descriptors : List (String × String)} (h : family.Plain)
    (hmem : descriptors ∈ family.descriptors directory name) :
    ∃ shown, Rule.Declares descriptors shown ∧ ('\n' ∈ shown.toList ↔ '\n' ∈ name.toList) := by
  obtain ⟨hfaces, hfallbacks⟩ := h
  rcases List.mem_append.mp hmem with hmem | hmem
  · obtain ⟨face, hface, rfl⟩ := List.mem_map.mp hmem
    exact ⟨name, ⟨rfl, fun hname => (hfaces face hface).readable hname directory⟩, Iff.rfl⟩
  · obtain ⟨installed, hinstalled, rfl⟩ := List.mem_map.mp hmem
    exact ⟨fallbackName name installed, ⟨rfl, fun hname =>
      readable_fallbackDescriptors hname (hfallbacks installed hinstalled) family.metrics⟩,
      mem_fallbackName_iff (hfallbacks installed hinstalled)⟩

/-- What stands in front of the name in a rule that declares a family. -/
def Rule.opening : List Char :=
  "@font-face ".toList ++ '{' :: '\n' :: ' ' :: ' ' :: "font-family".toList ++ [':', ' ']

theorem toList_render_cons (value : String) (descriptors : List (String × String)) :
    ∃ behind, (Rule.render (("font-family", value) :: descriptors)).toList =
      Rule.opening ++ (value.toList ++ behind) := by
  refine ⟨';' :: (descriptors.flatMap Css.descriptorLine ++ ['\n', '\x7d']), ?_⟩
  have hlines : (("font-family", value) :: descriptors).flatMap Css.descriptorLine =
      Css.descriptorLine ("font-family", value) ++ descriptors.flatMap Css.descriptorLine :=
    List.flatMap_cons
  have hrender := Css.toList_render (List.cons_ne_nil ("font-family", value) descriptors)
  generalize (Rule.render (("font-family", value) :: descriptors)).toList = text at hrender ⊢
  generalize (("font-family", value) :: descriptors).flatMap _ = lines at hlines hrender
  subst hlines hrender
  unfold Rule.opening Css.descriptorLine
  generalize "@font-face ".toList = keyword
  simp only [List.cons_append, List.nil_append, List.append_assoc]

/-- A rule declares a name without line feeds if it can be divided into lexemes. -/
theorem Rule.Declares.not_mem {descriptors : List (String × String)} {name : String}
    {cur last : Css.Cursor} {rest : List Char} (h : Rule.Declares descriptors name)
    (hscans : cur.Scans last) (hlast : last.rest = [])
    (hrest : cur.rest = (Rule.render descriptors).toList ++ rest) : '\n' ∉ name.toList := by
  obtain ⟨others, rfl⟩ := List.head?_eq_some_iff.mp h.head
  obtain ⟨behind, hrule⟩ := toList_render_cons (quote name) others
  have hreads : Reads cur Rule.opening
      (cur.pass Rule.opening ((quote name).toList ++ (behind ++ rest))) := by
    refine Css.Cursor.reads_pass ?_
    rw [hrest, hrule, List.append_assoc, List.append_assoc]
  have hwhole : Css.Whole Rule.opening := .of_all (by decide +kernel)
  exact Css.not_mem_of_scans (hscans.behind (.of_whole hwhole hreads) hlast) hlast rfl

/-! ### Rules one after another -/

/-- Some rules as they are inserted, each with the same text behind it. -/
def Rule.lines (gap : String) (rules : List (List (String × String))) : List Char :=
  rules.flatMap fun descriptors => (Rule.render descriptors).toList ++ gap.toList

theorem lines_cons (gap : String) (descriptors : List (String × String))
    (rules : List (List (String × String))) :
    Rule.lines gap (descriptors :: rules) =
      (Rule.render descriptors).toList ++ (gap.toList ++ Rule.lines gap rules) := by
  rw [Rule.lines, List.flatMap_cons, List.append_assoc]
  rfl

section Lines

variable {gap : String} {rules : List (List (String × String))} (hgap : gap = "" ∨ gap = "\n")

include hgap

theorem reading_gap (offset : Nat) (rest : List Char) :
    Reading .top ⟨offset, gap.toList ++ rest⟩ [] ⟨offset + size gap.toList, rest⟩ := by
  rcases hgap with rfl | rfl
  · exact .nil .top _
  · exact .separator (Css.Cursor.separator?_of_reads (.blank (c := '\n') (by decide)) ⟨rfl, rfl⟩)
      (.nil _ _)

/-- A rule without a line feed in its name is read back together with the text behind it. -/
theorem reading_line {descriptors : List (String × String)} {name : String}
    (h : Rule.Declares descriptors name) (hname : '\n' ∉ name.toList) (offset : Nat)
    (rest : List Char) :
    ∃ node, Reading .top ⟨offset, (Rule.render descriptors).toList ++ (gap.toList ++ rest)⟩ [node]
        ⟨offset + size (Rule.render descriptors).toList + size gap.toList, rest⟩ ∧
      IsFontFace descriptors node.bare := by
  have hne : descriptors ≠ [] := by
    rintro rfl
    cases h.head
  obtain ⟨node, hnode, hface⟩ :=
    Css.Sheet.reading_render hne (h.readable hname) offset (gap.toList ++ rest)
  exact ⟨node, hnode.append (reading_gap hgap _ rest), hface⟩

/-- Rules without a line feed in a name are read back in front of any text. -/
theorem reading_rules
    (h : ∀ descriptors ∈ rules, ∃ name, Rule.Declares descriptors name ∧ '\n' ∉ name.toList)
    (offset : Nat) (rest : List Char) :
    ∃ nodes, Reading .top ⟨offset, Rule.lines gap rules ++ rest⟩ nodes
        ⟨offset + size (Rule.lines gap rules), rest⟩ ∧
      List.Forall₂ IsFontFace rules (Css.bareIn nodes) := by
  induction rules generalizing offset with
  | nil => exact ⟨[], .nil .top _, .nil⟩
  | cons descriptors rules ih =>
    obtain ⟨name, hdeclares, hname⟩ := h descriptors (List.mem_cons_self ..)
    obtain ⟨node, hnode, hface⟩ :=
      reading_line hgap hdeclares hname offset (Rule.lines gap rules ++ rest)
    obtain ⟨nodes, hnodes, hall⟩ := ih (fun other hmem => h other (List.mem_cons_of_mem _ hmem))
      (offset + size (Rule.render descriptors).toList + size gap.toList)
    refine ⟨node :: nodes, ?_, .cons hface hall⟩
    rw [lines_cons, List.append_assoc, List.append_assoc]
    simp only [Text.size_append, ← Nat.add_assoc]
    exact hnode.append hnodes

/-- A text that begins with rules and can be divided into lexemes holds no line feed in a name that
they declare. -/
theorem not_mem_of_scans_rules {cur last : Css.Cursor} {rest : List Char}
    (h : ∀ descriptors ∈ rules, ∃ name, Rule.Declares descriptors name) (hscans : cur.Scans last)
    (hlast : last.rest = []) (hrest : cur.rest = Rule.lines gap rules ++ rest)
    {descriptors : List (String × String)} {name : String} (hname : Rule.Declares descriptors name)
    (hmem : Rule.render descriptors ∈ rules.map Rule.render) : '\n' ∉ name.toList := by
  induction rules generalizing cur with
  | nil => cases hmem
  | cons first rules ih =>
    rw [lines_cons, List.append_assoc, List.append_assoc] at hrest
    obtain ⟨shown, hdeclares⟩ := h first (List.mem_cons_self ..)
    rcases List.mem_cons.mp hmem with heq | hmem
    · rw [← heq] at hrest
      exact hname.not_mem hscans hlast hrest
    · obtain ⟨node, hnode, -⟩ := reading_line hgap hdeclares
        (hdeclares.not_mem hscans hlast hrest) cur.offset (Rule.lines gap rules ++ rest)
      have hfirst := hnode.scans
      rw [← hrest] at hfirst
      exact ih (fun other hmem => h other (List.mem_cons_of_mem _ hmem))
        (hscans.behind hfirst hlast) rfl hmem

end Lines

end WebFonts
