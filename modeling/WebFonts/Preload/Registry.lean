import Std.Data.ExtTreeMap
import Std.Data.ExtTreeSet

/-!
# The addresses to preload

A registry holds for each asset of a build the set of addresses that are to be preloaded with it.
Sets only grow: by one address (`addresses_insert`), or by the sets of other assets
(`mem_addresses_merge`).
-/

namespace WebFonts

/-- A set of addresses, listed in the order of their bytes. -/
abbrev Addresses := Std.ExtTreeSet String

/-- The addresses to preload with each asset. -/
structure Registry where
  assets : Std.ExtTreeMap String Addresses

namespace Registry

/-- The registry without assets. -/
def empty : Registry :=
  ⟨∅⟩

/-- Whether no asset has an entry. -/
def isEmpty (registry : Registry) : Bool :=
  registry.assets.isEmpty

/-- The addresses of an asset. -/
def addresses (registry : Registry) (asset : String) : Addresses :=
  registry.assets.getD asset ∅

/-- Adds one address to an asset. -/
def insert (asset address : String) (registry : Registry) : Registry :=
  ⟨registry.assets.insert asset ((registry.addresses asset).insert address)⟩

/-- The addresses of some assets, apart from the one they are meant for. -/
def gather (registry : Registry) (target : String) (sources : List String) : Addresses :=
  (sources.filter (· != target)).foldl (fun found source => found ∪ registry.addresses source) ∅

/-- Adds the addresses of some assets to a target, and tells how many it gained. A target that
gains nothing gets no entry. -/
def merge (target : String) (sources : List String) (registry : Registry) : Registry × Nat :=
  let found := registry.gather target sources
  if found.isEmpty then (registry, 0)
  else
    let before := registry.addresses target
    let after := before ∪ found
    (⟨registry.assets.insert target after⟩, after.size - before.size)

/-! ### What the operations do -/

theorem addresses_insert (asset address other : String) (registry : Registry) :
    (registry.insert asset address).addresses other =
      if asset = other then (registry.addresses other).insert address
      else registry.addresses other := by
  simp only [addresses, insert, Std.ExtTreeMap.getD_insert, Std.compare_eq_iff_eq]
  split
  · next heq => rw [heq]
  · rfl

theorem mem_gather {registry : Registry} {target address : String} {sources : List String} :
    address ∈ registry.gather target sources ↔
      ∃ source ∈ sources, source ≠ target ∧ address ∈ registry.addresses source := by
  have hfold : ∀ (sources : List String) (found : Addresses),
      address ∈ sources.foldl (fun found source => found ∪ registry.addresses source) found ↔
        address ∈ found ∨ ∃ source ∈ sources, address ∈ registry.addresses source := by
    intro sources
    induction sources with
    | nil => simp
    | cons source rest ih => intro found; simp [ih, or_assoc]
  simp [gather, hfold, and_assoc]

/-- A merge adds what it gathers to its target, and changes no other asset. -/
theorem mem_addresses_merge {registry : Registry} {target other address : String}
    {sources : List String} :
    address ∈ (registry.merge target sources).1.addresses other ↔
      address ∈ registry.addresses other ∨
        target = other ∧ address ∈ registry.gather target sources := by
  unfold merge
  dsimp only
  split
  · next hempty =>
    have hnot : address ∉ registry.gather target sources := by
      intro hmem
      rw [Std.ExtTreeSet.isEmpty_iff] at hempty
      simp [hempty] at hmem
    simp [hnot]
  · simp only [addresses, Std.ExtTreeMap.getD_insert, Std.compare_eq_iff_eq]
    split
    · next heq => simp [heq]
    · next hne => simp [hne]

end Registry

end WebFonts
