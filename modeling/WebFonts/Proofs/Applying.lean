import Mathlib.Data.List.Nodup
import WebFonts.Proofs.SpliceOffsets

/-!
# Applying families one after another

A family that is applied brings rules, of which those that are new go in front of the stylesheet, an
address to preload (`Draft.apply_enters`), and, if this succeeds, the names of its fallback families
behind its own name (`Draft.insertedAt_apply`).

A run of calls applies families to one draft. A call that fails ends its own work only: the run goes
on, and what the call entered before it failed stays. The lemmas tell what a run leaves in a draft:
the rules that are known (`mem_known_applyCalls`), the addresses to preload
(`registry_applyCalls`), and, where no call fails, the names inserted at an offset
(`insertedAt_applyCalls`).
-/

namespace WebFonts

open Css (FamilyUse)

/-! ### One family -/

namespace Draft

variable {tools : Tools} {options : Options} {use : FamilyUse} {family : Family}
  {draft draft' : Draft}

theorem continuation_append (front back : List String) :
    continuation (front ++ back) = continuation front ++ continuation back := by
  simp only [continuation, List.map_append, String.join_append]

variable (tools options use family draft) in
/-- What applying a family enters, also if its fallback families cannot be named: the rules that are
new, in front of everything, and the address to preload. A report counts the rules. -/
theorem apply_enters :
    let new := fresh draft.known (rules options.directory use.family family)
    let applied := draft.apply tools options use family
    applied.1.known = draft.known.insertMany new ∧
      applied.1.overlay.lead =
        String.join (new.map (tools.finish options)) ++ draft.overlay.lead ∧
      applied.1.registry =
        (preloadAddress? tools.preload use.family family).elim draft.registry
          (draft.registry.insert options.asset) ∧
      ∀ report, applied.2 = .ok report → report.inserted = new.length := by
  unfold apply
  dsimp only
  split
  · split
    · rename_i overlay hinsert
      obtain ⟨-, rfl⟩ := Overlay.insert_eq_ok_iff.mp hinsert
      refine ⟨rfl, ?_, rfl, fun report hreport => ?_⟩
      · exact Overlay.lead_place ..
      · rw [← Except.ok.inj hreport]
    · exact ⟨rfl, rfl, rfl, nofun⟩
  · refine ⟨rfl, rfl, rfl, fun report hreport => ?_⟩
    rw [← Except.ok.inj hreport]

/-- A family that is applied with success places the names of its fallback families. -/
theorem insertedAt_apply {report : Report}
    (h : draft.apply tools options use family = (draft', .ok report)) (other : Nat) :
    draft'.overlay.insertedAt other =
      draft.overlay.insertedAt other ++
        if use.spliceAt = some other then
          continuation (family.fallbacks.map (fallbackName use.family))
        else "" := by
  unfold apply at h
  dsimp only at h
  split at h
  · rename_i name names offset hnames hspliceAt
    split at h
    · rename_i overlay hinsert
      cases h
      obtain ⟨-, rfl⟩ := Overlay.insert_eq_ok_iff.mp hinsert
      rw [Overlay.insertedAt_place, hspliceAt]
      simp only [Option.some.injEq]
      split
      · rfl
      · rw [String.append_empty]
        rfl
    · cases h
  · rename_i hnone
    cases h
    have hempty : (if use.spliceAt = some other then
        continuation (family.fallbacks.map (fallbackName use.family)) else "") = "" := by
      split
      · rename_i hspliceAt
        cases hnames : family.fallbacks.map (fallbackName use.family) with
        | nil => rfl
        | cons name names => exact absurd hspliceAt (hnone name names other hnames)
      · rfl
    rw [hempty, String.append_empty]
    rfl

end Draft

/-! ### Calls -/

/-- Adds some addresses to an asset, one after another. -/
def Registry.insertAll (asset : String) (addresses : List String) (registry : Registry) :
    Registry :=
  addresses.foldl (fun registry address => registry.insert asset address) registry

namespace Registry

variable {asset other : String} {addresses : List String} {registry : Registry}

theorem mem_addresses_insertAll {address : String} :
    address ∈ (registry.insertAll asset addresses).addresses asset ↔
      address ∈ registry.addresses asset ∨ address ∈ addresses := by
  unfold insertAll
  induction addresses generalizing registry with
  | nil => simp
  | cons first rest ih =>
    rw [List.foldl_cons, ih, addresses_insert, if_pos rfl, Std.ExtTreeSet.mem_insert,
      Std.compare_eq_iff_eq, List.mem_cons]
    tauto

/-- Addresses that are added to one asset leave the other ones alone. -/
theorem getElem?_insertAll_of_ne (h : other ≠ asset) :
    (registry.insertAll asset addresses).assets[other]? = registry.assets[other]? := by
  unfold insertAll
  induction addresses generalizing registry with
  | nil => rfl
  | cons first rest ih =>
    rw [List.foldl_cons, ih, insert, Std.ExtTreeMap.getElem?_insert,
      if_neg fun hsame => h (Std.compare_eq_iff_eq.mp hsame).symm]

theorem mem_assets_of_mem_addresses {address : String} (h : address ∈ registry.addresses asset) :
    asset ∈ registry.assets := by
  by_contra hnot
  rw [Registry.addresses, Std.ExtTreeMap.getD_eq_fallback hnot] at h
  exact Std.ExtTreeSet.not_mem_empty h

/-- An asset gets an entry with the first address that is added to it. -/
theorem mem_assets_insertAll :
    asset ∈ (registry.insertAll asset addresses).assets ↔
      asset ∈ registry.assets ∨ addresses ≠ [] := by
  unfold insertAll
  induction addresses generalizing registry with
  | nil => simp
  | cons first rest ih => rw [List.foldl_cons, ih, insert]; simp

end Registry

namespace Draft

/-- A family to apply, and the use that asked for it. -/
structure Call where
  use : FamilyUse
  family : Family

namespace Call

/-- The rules of a call, in the order in which they are generated. -/
def rules (directory : Option String) (call : Call) : List String :=
  Draft.rules directory call.use.family call.family

/-- The names of the fallback families of a call. -/
def fallbackNames (call : Call) : List String :=
  call.family.fallbacks.map (fallbackName call.use.family)

/-- The address that a call records for preloading. -/
def preloaded? (policy : PreloadPolicy) (call : Call) : Option String :=
  preloadAddress? policy call.use.family call.family

end Call

/-- The rules of some calls, in the order in which they are generated. -/
def rulesOf (directory : Option String) (calls : List Call) : List String :=
  calls.flatMap (Call.rules directory)

theorem rulesOf_cons (directory : Option String) (call : Call) (calls : List Call) :
    rulesOf directory (call :: calls) = call.rules directory ++ rulesOf directory calls :=
  rfl

/-- The names that some calls place at an offset. -/
def namesAt (calls : List Call) (offset : Nat) : List String :=
  (calls.filter (·.use.spliceAt == some offset)).flatMap Call.fallbackNames

theorem namesAt_cons (call : Call) (calls : List Call) (offset : Nat) :
    namesAt (call :: calls) offset =
      (if call.use.spliceAt = some offset then call.fallbackNames else []) ++
        namesAt calls offset := by
  unfold namesAt
  by_cases h : call.use.spliceAt = some offset <;> simp [h]

theorem mem_namesAt {calls : List Call} {offset : Nat} {name : String} :
    name ∈ namesAt calls offset ↔
      ∃ call ∈ calls, call.use.spliceAt = some offset ∧ name ∈ call.fallbackNames := by
  simp only [namesAt, List.mem_flatMap, List.mem_filter, beq_iff_eq, and_assoc]

theorem exists_call_of_namesAt_ne_nil {calls : List Call} {offset : Nat}
    (h : namesAt calls offset ≠ []) : ∃ call ∈ calls, call.use.spliceAt = some offset := by
  obtain ⟨name, hname⟩ := List.exists_mem_of_ne_nil _ h
  obtain ⟨call, hcall, hoffset, -⟩ := mem_namesAt.mp hname
  exact ⟨call, hcall, hoffset⟩

/-- Of calls with different offsets, at most one places names at an offset. -/
theorem length_filter_spliceAt_le {calls : List Call}
    (h : (calls.filterMap (·.use.spliceAt)).Nodup) (offset : Nat) :
    (calls.filter (·.use.spliceAt == some offset)).length ≤ 1 := by
  have hcount := List.nodup_iff_count_le_one.mp h offset
  rwa [List.count_filterMap, List.countP_eq_length_filter] at hcount

/-- At the place of a call stand the names of its fallback families only. -/
theorem namesAt_of_mem {calls : List Call} {call : Call} {offset : Nat}
    (h : (calls.filterMap (·.use.spliceAt)).Nodup) (hcall : call ∈ calls)
    (hoffset : call.use.spliceAt = some offset) :
    namesAt calls offset = call.fallbackNames := by
  have hmem : call ∈ calls.filter (·.use.spliceAt == some offset) :=
    List.mem_filter.mpr ⟨hcall, beq_iff_eq.mpr hoffset⟩
  obtain ⟨other, hone⟩ := List.length_eq_one_iff.mp
    ((length_filter_spliceAt_le h offset).antisymm (List.length_pos_of_mem hmem))
  rw [hone, List.mem_singleton] at hmem
  rw [namesAt, hone, List.flatMap_singleton, hmem]

/-- Applies families one after another, those behind a failing call included. Gives what each call
gave. -/
def applyCalls (tools : Tools) (options : Options) :
    List Call → Draft → Draft × List (Except InsertFault Report)
  | [], draft => (draft, [])
  | call :: rest, draft =>
    let (draft, outcome) := draft.apply tools options call.use call.family
    let (draft, outcomes) := applyCalls tools options rest draft
    (draft, outcome :: outcomes)

variable (tools : Tools) (options : Options)

theorem applyCalls_append (front back : List Call) (draft : Draft) :
    let before := applyCalls tools options front draft
    let after := applyCalls tools options back before.1
    applyCalls tools options (front ++ back) draft = (after.1, before.2 ++ after.2) := by
  induction front generalizing draft with
  | nil => rfl
  | cons call rest ih =>
    rw [List.cons_append, applyCalls, applyCalls]
    dsimp only
    rw [ih]
    rfl

/-! ### What a run leaves in a draft -/

/-- The rules that are known after a run are those known before and those of its calls. -/
theorem mem_known_applyCalls {calls : List Call} {draft : Draft} {rule : String} :
    rule ∈ (applyCalls tools options calls draft).1.known ↔
      rule ∈ draft.known ∨ rule ∈ rulesOf options.directory calls := by
  induction calls generalizing draft with
  | nil => simp [applyCalls, rulesOf]
  | cons call rest ih =>
    obtain ⟨hknown, -⟩ := apply_enters tools options call.use call.family draft
    have hmem : rule ∈ draft.known.insertMany
          (fresh draft.known (call.rules options.directory)) ↔
        rule ∈ draft.known ∨ rule ∈ call.rules options.directory := by
      rw [Std.ExtTreeSet.mem_insertMany_list, List.contains_iff_mem, mem_fresh]
      tauto
    rw [applyCalls]
    dsimp only
    rw [ih, hknown, rulesOf_cons, List.mem_append, ← or_assoc]
    exact or_congr hmem Iff.rfl

/-- A run records the addresses of all its calls, in their order. -/
theorem registry_applyCalls (calls : List Call) (draft : Draft) :
    (applyCalls tools options calls draft).1.registry =
      draft.registry.insertAll options.asset (calls.filterMap (Call.preloaded? tools.preload)) := by
  induction calls generalizing draft with
  | nil => rfl
  | cons call rest ih =>
    obtain ⟨-, -, hregistry, -⟩ := apply_enters tools options call.use call.family draft
    rw [applyCalls]
    dsimp only
    rw [ih, hregistry, List.filterMap_cons, Call.preloaded?]
    cases preloadAddress? tools.preload call.use.family call.family <;> rfl

/-- A run leaves the source as it is. -/
theorem source_applyCalls (calls : List Call) (draft : Draft) :
    (applyCalls tools options calls draft).1.overlay.source = draft.overlay.source := by
  induction calls generalizing draft with
  | nil => rfl
  | cons call rest ih => exact (ih _).trans (source_apply ..)

variable {tools options}

/-- What a run in which no call fails inserts at an offset. -/
theorem insertedAt_applyCalls {calls : List Call} {draft : Draft}
    (h : ∀ outcome ∈ (applyCalls tools options calls draft).2,
      ∃ report, outcome = .ok report) (offset : Nat) :
    (applyCalls tools options calls draft).1.overlay.insertedAt offset =
      draft.overlay.insertedAt offset ++ continuation (namesAt calls offset) := by
  induction calls generalizing draft with
  | nil => exact (String.append_empty ..).symm
  | cons call rest ih =>
    generalize happly : draft.apply tools options call.use call.family = applied at h
    obtain ⟨entered, outcome⟩ := applied
    rw [applyCalls, happly] at h ⊢
    obtain ⟨report, rfl⟩ := h outcome (List.mem_cons_self ..)
    dsimp only
    rw [ih fun other hmem => h other (List.mem_cons_of_mem _ hmem), insertedAt_apply happly,
      namesAt_cons, continuation_append, String.append_assoc, apply_ite continuation]
    rfl

variable (tools options) in
/-- No call fails where names can be inserted behind the families of all uses. -/
theorem exists_reports_of_applyCalls {calls : List Call} (draft : Draft)
    (h : ∀ call ∈ calls, ∀ offset, call.use.spliceAt = some offset →
      Text.isBoundary offset draft.overlay.source.toList = true) :
    ∀ outcome ∈ (applyCalls tools options calls draft).2, ∃ report, outcome = .ok report := by
  induction calls generalizing draft with
  | nil => exact nofun
  | cons call rest ih =>
    intro outcome hmem
    rw [applyCalls] at hmem
    rcases List.mem_cons.mp hmem with rfl | hmem
    · exact exists_report_of_apply tools options call.family (h call (List.mem_cons_self ..))
    · refine ih _ (fun other hother => ?_) outcome hmem
      rw [source_apply]
      exact h other (List.mem_cons_of_mem _ hother)

end Draft

end WebFonts
