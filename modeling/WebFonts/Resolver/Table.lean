import Std.Data.ExtTreeMap
import WebFonts.Font.Family
import WebFonts.Resolver.Basic
import WebFonts.Text.Case

/-!
# A table of families

The table finds a family by its name in any case (`lookUp_enter`). A family that lists no fallbacks
takes those of the author, and without these the local fonts that are set for the generic family.
-/

namespace WebFonts

/-- Families by name, and local fonts that stand in for generic families. -/
structure FontTable where
  /-- The families by their names in lower case. -/
  families : Std.ExtTreeMap String Family
  standIns : GenericFamily → List String

namespace FontTable

/-- The table without entries. -/
def empty : FontTable :=
  ⟨∅, fun _ => []⟩

/-- The number of names. -/
def size (table : FontTable) : Nat :=
  table.families.size

/-! ### Filling a table -/

/-- Sets the local fonts that stand in for a generic family. -/
def setStandIns (generic : GenericFamily) (fonts : List String) (table : FontTable) : FontTable :=
  { table with standIns := fun other => if other = generic then fonts else table.standIns other }

/-- Sets the local fonts for several generic families, one after another. -/
def setAll (entries : List (GenericFamily × List String)) (table : FontTable) : FontTable :=
  entries.foldl (fun table (generic, fonts) => table.setStandIns generic fonts) table

/-- Sets the usual local fonts for every generic family that has some. -/
def setUsual (table : FontTable) : FontTable :=
  table.setAll GenericFamily.usual

/-- Enters a family under a name. It replaces the family of that name. -/
def enter (name : String) (family : Family) (table : FontTable) : FontTable :=
  { table with families := table.families.insert (Text.lower name) family }

/-! ### Looking up -/

/-- The fallbacks for a request: those of the family, else of the author, else of the generic
family. -/
def fallbacksFor (table : FontTable) (own : List String) (request : Request) : List String :=
  if !own.isEmpty then own
  else if !request.fallbacks.isEmpty then request.fallbacks
  else request.generic.elim [] table.standIns

/-- The family of a name, with the fallbacks for a request. -/
def lookUp (table : FontTable) (name : String) (request : Request) : Option Family :=
  table.families[Text.lower name]?.map fun family =>
    { family with fallbacks := table.fallbacksFor family.fallbacks request }

theorem lookUp_empty (name : String) (request : Request) :
    FontTable.empty.lookUp name request = none := by
  simp [empty, lookUp]

/-- The family that was registered last under a name is found, in any case of that name. -/
theorem lookUp_enter (name other : String) (family : Family) (request : Request)
    (table : FontTable) :
    (table.enter name family).lookUp other request =
      if Text.lower name = Text.lower other then
        some { family with fallbacks := table.fallbacksFor family.fallbacks request }
      else table.lookUp other request := by
  unfold lookUp enter
  simp only [Std.ExtTreeMap.getElem?_insert, Std.compare_eq_iff_eq]
  split <;> rfl

/-- The resolver that asks the table. -/
def resolver (table : FontTable) : Resolver := fun name request =>
  (table.lookUp name request).elim .unknown .found

end FontTable

end WebFonts
