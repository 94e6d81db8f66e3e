import WebFonts.Css.FamilyUse
import WebFonts.Overlay
import WebFonts.Preload.Registry
import WebFonts.Revision.Options
import WebFonts.Rule.FontFace

/-!
# Drafts

A draft is a revision under way: the insertions made so far, the rules among them, and the addresses
to preload. `apply` enters what is known of the family that one declaration uses. Its rules go in
front of the stylesheet, each distinct one only once (`mem_fresh`, `nodup_fresh`), and the names of
its fallback families behind its own name in the declaration.
-/

namespace WebFonts

open Css (FamilyUse Names)

/-- A revision under way. -/
structure Draft where
  overlay : Overlay
  /-- The rules that were inserted, as they were generated. -/
  known : Names
  registry : Registry

/-- What applying a family changed. -/
structure Report where
  /-- The number of rules inserted. -/
  inserted : Nat
  /-- The names inserted behind the name of the family. -/
  fallbackNames : List String
  /-- The address that was recorded for preloading. -/
  preloaded : Option String
deriving Repr, DecidableEq

namespace Draft

/-- The draft of a revision that begins. -/
def ofSource (source : String) (registry : Registry) : Draft :=
  ⟨.ofSource source, ∅, registry⟩

/-! ### What a family brings -/

/-- The rules for a family: one for each face, and one for each fallback family. -/
def rules (directory : Option String) (name : String) (family : Family) : List String :=
  (family.faces.map fun face => face.rule name directory) ++
    family.fallbacks.map fun installed =>
      fallbackRule (fallbackName name installed) installed family.metrics

/-- The rules that are not known yet, each once. -/
def fresh (known : Names) : List String → List String
  | [] => []
  | rule :: rest =>
    if known.contains rule then fresh known rest
    else rule :: fresh (known.insert rule) rest

/-- The fresh rules are those that are not known. -/
theorem mem_fresh {known : Names} {rules : List String} {rule : String} :
    rule ∈ fresh known rules ↔ rule ∈ rules ∧ rule ∉ known := by
  fun_induction fresh known rules with
  | case1 => simp
  | case2 known first rest hknown ih =>
    rw [ih, List.mem_cons]
    constructor
    · rintro ⟨hmem, hnot⟩
      exact ⟨.inr hmem, hnot⟩
    · rintro ⟨rfl | hmem, hnot⟩
      · exact absurd (Std.ExtTreeSet.mem_iff_contains.mpr hknown) hnot
      · exact ⟨hmem, hnot⟩
  | case3 known first rest hnew ih =>
    have hnot : first ∉ known := fun hmem => hnew (Std.ExtTreeSet.mem_iff_contains.mp hmem)
    simp only [List.mem_cons, ih, Std.ExtTreeSet.mem_insert, Std.compare_eq_iff_eq]
    grind

/-- No rule is fresh twice. -/
theorem nodup_fresh (known : Names) (rules : List String) : (fresh known rules).Nodup := by
  fun_induction fresh known rules with
  | case1 => exact List.nodup_nil
  | case2 => assumption
  | case3 known first rest hnew ih =>
    exact List.nodup_cons.mpr ⟨fun hmem => (mem_fresh.mp hmem).2 (by simp), ih⟩

/-- The address to preload with a family: the first one of its first face, if the policy accepts
that face. -/
def preloadAddress? (policy : PreloadPolicy) (name : String) (family : Family) :
    Option String := do
  let first ← family.faces.head?
  if policy name first then first.firstAddress? else none

/-- The names of fallback families as they continue a list of families. -/
def continuation (names : List String) : String :=
  String.join (names.map fun name => ", " ++ Rule.quote name)

/-! ### Applying a family -/

/-- Records the address to preload with a family. -/
def recordPreload (asset : String) (address : Option String) (draft : Draft) : Draft :=
  { draft with registry := address.elim draft.registry (draft.registry.insert asset) }

/-- Inserts rules in front of the stylesheet. -/
def insertRules (finish : String → String) (rules : List String) (draft : Draft) : Draft :=
  { draft with
    overlay := draft.overlay.prepend (String.join (rules.map finish))
    known := draft.known.insertMany rules }

/-- Enters what is known of a family that a declaration uses. If its fallback families cannot be
named in the declaration, the rest stays entered. -/
def apply (tools : Tools) (options : Options) (use : FamilyUse) (family : Family)
    (draft : Draft) : Draft × Except InsertFault Report :=
  let names := family.fallbacks.map (fallbackName use.family)
  let preloaded := preloadAddress? tools.preload use.family family
  let new := fresh draft.known (rules options.directory use.family family)
  let draft := (draft.recordPreload options.asset preloaded).insertRules (tools.finish options) new
  match names, use.spliceAt with
  | _ :: _, some offset =>
    match draft.overlay.insert offset (continuation names) with
    | .ok overlay => ({ draft with overlay }, .ok ⟨new.length, names, preloaded⟩)
    | .error fault => (draft, .error fault)
  | _, _ => (draft, .ok ⟨new.length, [], preloaded⟩)

end Draft

end WebFonts
