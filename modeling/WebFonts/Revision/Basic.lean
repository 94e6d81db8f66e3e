import WebFonts.Css.Sheet
import WebFonts.Resolver.Basic
import WebFonts.Revision.Draft

/-!
# Revising a stylesheet

Every family that a stylesheet uses without declaring it is looked up, and what is known of it is
entered into a draft when its lookup ends. The first failure ends the revision; the registry then
keeps what was recorded before.
-/

namespace WebFonts

open Css (FamilyUse)

/-- The reasons for which a revision fails. -/
inductive RevisionFault where
  | parse (fault : Css.Fault)
  | resolve (fault : ResolveFault)
  | insert (fault : InsertFault)
  /-- There is nothing on which a lookup could run. -/
  | noExecutor
  /-- A lookup broke down. -/
  | crashed
deriving Repr, DecidableEq

/-- The wording under which a failure is reported. -/
def RevisionFault.message : RevisionFault → String
  | parse fault => s!"CSS parse error: {fault.message}"
  | resolve fault => s!"Font resolution error: {fault.message}"
  | insert fault => s!"Edit error: {fault.message}"
  | noExecutor => "No executor to resolve fonts on"
  | crashed => "Font resolution task failed"

/-- What it takes to revise stylesheets. -/
structure Reviser where
  resolver : Resolver
  tools : Tools
  /-- Whether there is something on which a lookup can run. -/
  hasExecutor : Bool

/-- The families that a stylesheet uses without declaring them. -/
def usesOf? (css : String) (customProperties : Bool) : Except Css.Fault (List FamilyUse) := do
  let sheet ← Css.Sheet.ofText? css
  let declared ← Css.declaredNames sheet
  Css.familyUses sheet declared customProperties

/-! ### Lookups -/

/-- What a lookup ended with, and the use that asked for it. -/
structure Reply where
  use : FamilyUse
  answer : Answer

/-- How the lookups for the uses of a stylesheet end. They run at the same time, so their replies
come in in any order; each use gets one. -/
structure Lookups where
  replies : List FamilyUse → List Reply
  perm (uses : List FamilyUse) : ((replies uses).map Reply.use).Perm uses

/-- The reply of a resolver to a use. -/
def Reply.ofResolver (resolver : Resolver) (use : FamilyUse) : Reply :=
  ⟨use, resolver use.family use.request⟩

/-- Lookups that end in the order of the uses. -/
def Lookups.inOrder (resolver : Resolver) : Lookups where
  replies uses := uses.map (Reply.ofResolver resolver)
  perm uses := by
    rw [List.map_map]
    exact .of_eq (List.map_id uses)

/-! ### Revisions -/

/-- Enters replies into a draft, one after another, up to the first failure. -/
def Draft.enterAll (tools : Tools) (options : Options) :
    List Reply → Draft → Draft × Except RevisionFault Unit
  | [], draft => (draft, .ok ())
  | reply :: rest, draft =>
    match reply.answer with
    | .crashed => (draft, .error .crashed)
    | .refused fault => (draft, .error (.resolve fault))
    | .unknown => draft.enterAll tools options rest
    | .found family =>
      match draft.apply tools options reply.use family with
      | (draft, .error fault) => (draft, .error (.insert fault))
      | (draft, .ok _) => draft.enterAll tools options rest

namespace Reviser

/-- Revises a stylesheet for which the lookups end as given. The registry is given back in either
case. -/
def reviseBy (reviser : Reviser) (lookups : Lookups) (options : Options) (css : String)
    (registry : Registry) : Registry × Except RevisionFault Overlay :=
  match usesOf? css options.customProperties with
  | .error fault => (registry, .error (.parse fault))
  | .ok [] => (registry, .ok (.ofSource css))
  | .ok uses =>
    if reviser.hasExecutor then
      let (draft, outcome) := (Draft.ofSource css registry).enterAll reviser.tools options
        (lookups.replies uses)
      (draft.registry, outcome.map fun _ => draft.overlay)
    else (registry, .error .noExecutor)

/-- Revises a stylesheet. The lookups end in the order of the declarations. -/
def revise (reviser : Reviser) (options : Options) (css : String) (registry : Registry) :
    Registry × Except RevisionFault Overlay :=
  reviser.reviseBy (.inOrder reviser.resolver) options css registry

end Reviser

end WebFonts
