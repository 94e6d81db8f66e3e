import Mathlib.Data.List.Basic
import Mathlib.Tactic.Tauto
import WebFonts.Proofs.Applying
import WebFonts.Proofs.ByteOrder

/-!
# What a run of calls leaves in a registry

A registry is filled by calls that record an address for an asset, or merge the addresses of some
assets into another one. `run_is_union` says what any run of them leaves: the sets that the calls of
the run bring together, call by call, and nothing else. It does not matter in which order two
neighbouring calls come of which neither takes addresses from the target of the other one.

What one call does is said by `mem_addresses_after`; by induction, an address was brought by one of
the calls of a run (`mem_addresses_run`). Every asset with an entry has an address
(`filled_run`), so that a registry is told by its addresses alone (`Filled.eq_of_mem_iff`). A call
that does not feed another one leaves what the other one brings (`Change.brings_after_iff`), hence
the two commute (`Filled.after_comm`).
-/

namespace WebFonts.Registry

open Edit (bytes)

/-! ### Calls -/

/-- One call on a registry. -/
inductive Change where
  | record (asset address : String)
  | merge (target : String) (sources : List String)
deriving Repr, DecidableEq

namespace Change

/-- The asset to which a call adds addresses. -/
def target : Change → String
  | record asset _ => asset
  | merge target _ => target

/-- A call adds an address to its target: the one that is recorded, or one of an asset that is
merged into another one. -/
def Brings (registry : Registry) (address : String) : Change → Prop
  | record _ recorded => recorded = address
  | merge target sources =>
    ∃ source ∈ sources, source ≠ target ∧ address ∈ registry.addresses source

/-- A call feeds another one: the other one merges the target of the first into a target of its
own. -/
def Feeds (first : Change) : Change → Prop
  | record _ _ => False
  | merge target sources => first.target ∈ sources ∧ first.target ≠ target

end Change

/-- The registry behind a call. -/
def after (registry : Registry) : Change → Registry
  | .record asset address => registry.insert asset address
  | .merge target sources => (registry.merge target sources).1

/-- The registry behind a run of calls that begins with the empty one. -/
def run (changes : List Change) : Registry :=
  changes.foldl after empty

/-! ### One call -/

variable {registry : Registry} {asset address : String} {change first second : Change}

theorem mem_addresses_after :
    address ∈ (registry.after change).addresses asset ↔
      address ∈ registry.addresses asset ∨
        change.target = asset ∧ change.Brings registry address := by
  cases change with
  | record target recorded =>
    rw [after, addresses_insert]
    split
    · rename_i htarget
      simp [Change.target, Change.Brings, htarget, or_comm]
    · rename_i hne
      simp [Change.target, hne]
  | merge target sources =>
    rw [after, mem_addresses_merge, mem_gather]
    rfl

/-- A target gets an entry with the first address that a call brings. -/
theorem mem_assets_after :
    asset ∈ (registry.after change).assets ↔
      asset ∈ registry.assets ∨
        change.target = asset ∧ ∃ address, change.Brings registry address := by
  cases change with
  | record target recorded => simp [after, insert, Change.target, Change.Brings, or_comm]
  | merge target sources =>
    have hbrings (address : String) : (Change.merge target sources).Brings registry address ↔
        address ∈ registry.gather target sources :=
      mem_gather.symm
    simp only [hbrings, after, merge]
    split
    · rename_i hempty
      rw [Std.ExtTreeSet.isEmpty_iff] at hempty
      simp [hempty]
    · rename_i hne
      have hsome : ∃ address, address ∈ registry.gather target sources := by
        rw [Std.ExtTreeSet.isEmpty_iff, Std.ExtTreeSet.eq_empty_iff_forall_not_mem] at hne
        exact not_forall_not.mp hne
      simp [Change.target, hsome, or_comm]

/-- A merge adds to its target as many addresses as it says, and leaves all other entries alone. -/
theorem size_addresses_merge (registry : Registry) (target : String) (sources : List String) :
    (∀ other, other ≠ target →
        (registry.merge target sources).1.assets[other]? = registry.assets[other]?) ∧
      ((registry.merge target sources).1.addresses target).size =
        (registry.addresses target).size + (registry.merge target sources).2 := by
  unfold merge
  dsimp only
  split
  · exact ⟨fun _ _ => rfl, rfl⟩
  · refine ⟨fun other hne => ?_, ?_⟩
    · rw [Std.ExtTreeMap.getElem?_insert,
        if_neg fun hsame => hne (Std.compare_eq_iff_eq.mp hsame).symm]
    · have hgrows : (registry.addresses target).size ≤
          (registry.addresses target ∪ registry.gather target sources).size :=
        Std.ExtTreeSet.size_left_le_size_union
      rw [addresses, Std.ExtTreeMap.getD_insert_self]
      omega

/-! ### Runs -/

theorem run_concat (changes : List Change) (change : Change) :
    run (changes ++ [change]) = (run changes).after change :=
  List.foldl_concat ..

/-- The addresses of an asset are those that the calls of a run brought to it, each from the
registry that the calls in front of it had left. -/
theorem mem_addresses_run {changes : List Change} :
    address ∈ (run changes).addresses asset ↔
      ∃ before change behind, changes = before ++ change :: behind ∧ change.target = asset ∧
        change.Brings (run before) address := by
  induction changes using List.reverseRecOn with
  | nil => simp [run, empty, addresses]
  | append_singleton changes last ih =>
    rw [run_concat, mem_addresses_after, ih]
    constructor
    · rintro (⟨before, change, behind, rfl, htarget, hbrings⟩ | ⟨htarget, hbrings⟩)
      · exact ⟨before, change, behind ++ [last], by simp, htarget, hbrings⟩
      · exact ⟨changes, last, [], rfl, htarget, hbrings⟩
    · rintro ⟨before, change, behind, hchanges, htarget, hbrings⟩
      rcases behind.eq_nil_or_concat with rfl | ⟨behind, other, rfl⟩
      · obtain ⟨rfl, hlast⟩ := List.append_inj' hchanges rfl
        cases hlast
        exact .inr ⟨htarget, hbrings⟩
      · rw [List.concat_eq_append, ← List.cons_append, ← List.append_assoc] at hchanges
        obtain ⟨rfl, -⟩ := List.append_inj' hchanges rfl
        exact .inl ⟨before, change, behind, rfl, htarget, hbrings⟩

/-- Exactly the assets with an address have an entry. -/
def Filled (registry : Registry) : Prop :=
  ∀ asset, asset ∈ registry.assets ↔ ∃ address, address ∈ registry.addresses asset

theorem Filled.after (h : registry.Filled) (change : Change) : (registry.after change).Filled := by
  intro asset
  simp only [mem_assets_after, mem_addresses_after, h asset]
  constructor
  · rintro (⟨address, haddress⟩ | ⟨htarget, address, hbrings⟩)
    · exact ⟨address, .inl haddress⟩
    · exact ⟨address, .inr ⟨htarget, hbrings⟩⟩
  · rintro ⟨address, haddress | ⟨htarget, hbrings⟩⟩
    · exact .inl ⟨address, haddress⟩
    · exact .inr ⟨htarget, address, hbrings⟩

theorem filled_run (changes : List Change) : (run changes).Filled := by
  induction changes using List.reverseRecOn with
  | nil => simp [Filled, run, empty, addresses]
  | append_singleton changes last ih =>
    rw [run_concat]
    exact ih.after last

/-! ### The order of calls -/

/-- Registries in which every entry has an address are equal if their addresses are. -/
theorem Filled.eq_of_mem_iff {other : Registry} (h : registry.Filled) (hother : other.Filled)
    (hmem : ∀ asset address,
      address ∈ registry.addresses asset ↔ address ∈ other.addresses asset) :
    registry = other := by
  have haddresses (asset : String) : registry.addresses asset = other.addresses asset :=
    Std.ExtTreeSet.ext_mem fun {address} => hmem asset address
  have hassets (asset : String) : asset ∈ registry.assets ↔ asset ∈ other.assets := by
    simp only [h asset, hother asset, hmem]
  show Registry.mk registry.assets = Registry.mk other.assets
  congr 1
  apply Std.ExtTreeMap.ext_getElem?
  intro asset
  have hsame := haddresses asset
  by_cases hentry : asset ∈ registry.assets
  · have hentry' := (hassets asset).mp hentry
    rw [addresses, addresses, Std.ExtTreeMap.getD_eq_getD_getElem?,
      Std.ExtTreeMap.getD_eq_getD_getElem?, Std.ExtTreeMap.getElem?_eq_some_getElem hentry,
      Std.ExtTreeMap.getElem?_eq_some_getElem hentry', Option.getD_some, Option.getD_some] at hsame
    rw [Std.ExtTreeMap.getElem?_eq_some_getElem hentry,
      Std.ExtTreeMap.getElem?_eq_some_getElem hentry', hsame]
  · rw [Std.ExtTreeMap.getElem?_eq_none hentry,
      Std.ExtTreeMap.getElem?_eq_none fun hmem => hentry ((hassets asset).mpr hmem)]

/-- A call brings the same behind another one that does not feed it. -/
theorem Change.brings_after_iff (h : ¬ first.Feeds second) :
    second.Brings (registry.after first) address ↔ second.Brings registry address := by
  cases second with
  | record => rfl
  | merge target sources =>
    refine exists_congr fun source => and_congr_right fun hsource => and_congr_right fun hne => ?_
    rw [mem_addresses_after]
    have hapart : first.target ≠ source := by
      rintro rfl
      exact h ⟨hsource, hne⟩
    simp [hapart]

theorem Filled.after_comm (h : registry.Filled) (hfirst : ¬ first.Feeds second)
    (hsecond : ¬ second.Feeds first) :
    (registry.after first).after second = (registry.after second).after first := by
  apply ((h.after first).after second).eq_of_mem_iff ((h.after second).after first)
  intro asset address
  rw [mem_addresses_after, mem_addresses_after, mem_addresses_after, mem_addresses_after,
    Change.brings_after_iff hfirst, Change.brings_after_iff hsecond]
  tauto

theorem run_swap (hfirst : ¬ first.Feeds second) (hsecond : ¬ second.Feeds first)
    (before behind : List Change) :
    run (before ++ second :: first :: behind) = run (before ++ first :: second :: behind) := by
  have hrun (changes : List Change) : run (before ++ changes) = changes.foldl after (run before) :=
    List.foldl_append ..
  rw [hrun, hrun, List.foldl_cons, List.foldl_cons, List.foldl_cons, List.foldl_cons,
    (filled_run before).after_comm hfirst hsecond]

/-- **A registry is a growing union of sets.** Behind any run of calls, an address belongs to an
asset exactly if it was recorded for it, or if a merge into the asset found it in another one of its
sources. The addresses of an asset are listed in the strict order of their bytes, and exactly the
assets with an address have an entry. A merge changes the entry of its target only, and tells by how
many addresses it grew. Two neighbouring calls of which neither feeds the other one may be
swapped. -/
theorem run_is_union (changes : List Change) :
    (∀ asset address, address ∈ (run changes).addresses asset ↔
      .record asset address ∈ changes ∨
        ∃ before sources behind, changes = before ++ .merge asset sources :: behind ∧
          ∃ source ∈ sources, source ≠ asset ∧ address ∈ (run before).addresses source) ∧
    (∀ asset,
      (((run changes).addresses asset).toList.Pairwise fun address other =>
        bytes address < bytes other) ∧
      ∀ address, address ∈ ((run changes).addresses asset).toList ↔
        address ∈ (run changes).addresses asset) ∧
    (∀ asset, asset ∈ (run changes).assets ↔
      ∃ address, address ∈ (run changes).addresses asset) ∧
    (∀ target sources, let merged := (run changes).merge target sources
      (∀ other, other ≠ target → merged.1.assets[other]? = (run changes).assets[other]?) ∧
        (merged.1.addresses target).size = ((run changes).addresses target).size + merged.2) ∧
    ∀ before first second behind, changes = before ++ first :: second :: behind →
      ¬ first.Feeds second → ¬ second.Feeds first →
        run (before ++ second :: first :: behind) = run changes := by
  refine ⟨fun asset address => ?_, fun asset => ⟨Text.pairwise_bytes_lt _, fun address => ?_⟩,
    filled_run changes, size_addresses_merge (run changes), ?_⟩
  · rw [mem_addresses_run]
    constructor
    · rintro ⟨before, change, behind, rfl, rfl, hbrings⟩
      cases change with
      | record target recorded =>
        cases hbrings
        exact .inl (List.mem_append_right before List.mem_cons_self)
      | merge target sources => exact .inr ⟨before, sources, behind, rfl, hbrings⟩
    · rintro (hrecord | ⟨before, sources, behind, hchanges, hbrings⟩)
      · obtain ⟨before, behind, hchanges⟩ := List.append_of_mem hrecord
        exact ⟨before, _, behind, hchanges, rfl, rfl⟩
      · exact ⟨before, _, behind, hchanges, rfl, hbrings⟩
  · exact Std.ExtTreeSet.mem_toList
  · rintro before first second behind rfl hfirst hsecond
    exact run_swap hfirst hsecond before behind

/-- Through a chain of two merges an asset gets what was recorded before the first one. The first
record may be made behind the second one. -/
theorem run_is_union_of_chain :
    let changes : List Change := [.record "a" "/2", .record "b" "/1",
      .merge "m" ["a", "m", "b", "a", "none"], .merge "n" ["m"], .record "m" "/3"]
    ((run changes).addresses "n").toList = ["/1", "/2"] ∧
      ¬ (Change.record "a" "/2").Feeds (.record "b" "/1") ∧
      run ([] ++ .record "b" "/1" :: .record "a" "/2" :: changes.drop 2) = run changes := by
  refine ⟨by decide +kernel, nofun, ?_⟩
  exact (run_is_union _).2.2.2.2 [] _ _ _ rfl nofun nofun

end WebFonts.Registry
