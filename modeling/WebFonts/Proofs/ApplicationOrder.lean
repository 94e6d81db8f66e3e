import WebFonts.Proofs.DistinctRules

/-!
# The order of application

The answers for the uses of a stylesheet can come in, and be applied, in any order. Two orders may
put the rules in front of the stylesheet in different orders too, and differ in nothing else
(`order_of_application`). The uses of a stylesheet have different offsets, so names that are
inserted at one offset come from one call; which call inserts a rule that two of them generate does
not matter, as the rule is inserted once; and a registry is a set for each asset.
-/

namespace WebFonts

open Css (FamilyUse Names)

/-! ### Registries -/

namespace Registry

theorem insert_comm (asset first second : String) (registry : Registry) :
    (registry.insert asset first).insert asset second =
      (registry.insert asset second).insert asset first := by
  have haddresses : ((registry.insert asset first).addresses asset).insert second =
      ((registry.insert asset second).addresses asset).insert first := by
    rw [addresses_insert, addresses_insert, if_pos rfl, if_pos rfl]
    apply Std.ExtTreeSet.ext_mem
    intro address
    simp only [Std.ExtTreeSet.mem_insert]
    tauto
  show Registry.mk _ = Registry.mk _
  rw [haddresses]
  congr 1
  apply Std.ExtTreeMap.ext_getElem?
  intro other
  simp only [insert, Std.ExtTreeMap.getElem?_insert]
  split <;> rfl

/-- The order in which addresses are added does not matter. -/
theorem insertAll_of_perm {asset : String} {first second : List String}
    (h : first.Perm second) (registry : Registry) :
    registry.insertAll asset first = registry.insertAll asset second :=
  h.foldl_eq' (fun address _ other _ registry => registry.insert_comm asset address other) registry

end Registry

namespace Draft

/-! ### Calls at different offsets -/

/-- The calls for the uses that are answered. -/
def answered (uses : List FamilyUse) (answers : List (Option Family)) : List Call :=
  (uses.zip answers).filterMap fun (use, answer) => answer.map (Call.mk use)

theorem uses_answered (uses : List FamilyUse) (answers : List (Option Family)) :
    ((answered uses answers).map Call.use).Sublist uses := by
  induction uses generalizing answers with
  | nil => exact .slnil
  | cons use rest ih =>
    cases answers with
    | nil => exact List.nil_sublist _
    | cons answer answers =>
      have hrest := ih answers
      cases answer with
      | none => exact hrest.cons use
      | some family => exact hrest.cons_cons use

theorem eq_of_perm_of_short {α : Type} {list other : List α} (h : list.Perm other)
    (hshort : list.length ≤ 1) : list = other := by
  match list with
  | [] => exact h.nil_eq
  | [a] => exact (List.perm_singleton.mp h.symm).symm
  | a :: b :: rest => simp at hshort

variable {first second : List Call}

/-- Of calls with different offsets, at most one inserts names at an offset. So the order of the
calls does not matter to the names. -/
theorem namesAt_of_perm (h : first.Perm second)
    (hnodup : (first.filterMap (·.use.spliceAt)).Nodup) (offset : Nat) :
    namesAt first offset = namesAt second offset := by
  have hperm := h.filter (·.use.spliceAt == some offset)
  rw [namesAt, namesAt, eq_of_perm_of_short hperm (length_filter_spliceAt_le hnodup offset)]

theorem weave_congr {overlay other : Overlay}
    (h : ∀ offset, overlay.insertedAt offset = other.insertedAt offset) (text : List Char)
    (offset : Nat) : overlay.weave offset text = other.weave offset text := by
  induction text generalizing offset with
  | nil => rw [Overlay.weave, Overlay.weave, h]
  | cons c rest ih => rw [Overlay.weave, Overlay.weave, h, ih]

/-! ### Two orders -/

variable {tools : Tools} {options : Options}

/-- The number of rules that some calls report as inserted. -/
def insertedTotal : List (Except InsertFault Report) → Nat
  | [] => 0
  | .ok report :: rest => report.inserted + insertedTotal rest
  | .error _ :: rest => insertedTotal rest

/-- The total of the reports counts the new rules, if every call succeeds. -/
theorem insertedTotal_eq {outcomes : List (Except InsertFault Report)}
    {new : List (List String)}
    (h : List.Forall₂ (fun outcome rules =>
      ∀ report, outcome = .ok report → report.inserted = rules.length) outcomes new)
    (hall : ∀ outcome ∈ outcomes, ∃ report, outcome = .ok report) :
    insertedTotal outcomes = new.flatten.length := by
  induction h with
  | nil => rfl
  | cons hfirst hrest ih =>
    obtain ⟨report, rfl⟩ := hall _ (List.mem_cons_self ..)
    have htotal := ih fun outcome hmem => hall outcome (List.mem_cons_of_mem _ hmem)
    rw [List.flatten_cons, List.length_append, ← hfirst report rfl, ← htotal]
    rfl

/-- Two runs for the same calls that differ in nothing but the order of the rules in front of the
source. -/
structure AlikeButForLead (tools : Tools) (options : Options) (calls : List Call)
    (one other : Draft × List (Except InsertFault Report)) : Prop where
  /-- No call fails. -/
  succeed : ∀ outcome ∈ one.2 ++ other.2, ∃ report, outcome = .ok report
  /-- What stands in front of the source is made of the same rules, each of them once. -/
  lead : ∃ rules rules' : List String, rules.Perm rules' ∧ rules.Nodup ∧
    (∀ rule, rule ∈ rules ↔ ∃ call ∈ calls, rule ∈ call.rules options.directory) ∧
    one.1.overlay.lead = finishedText tools options rules ∧
    other.1.overlay.lead = finishedText tools options rules'
  /-- The text behind is the same. -/
  body : ∃ body, one.1.overlay.render = one.1.overlay.lead ++ body ∧
    other.1.overlay.render = other.1.overlay.lead ++ body
  inserted : insertedTotal one.2 = insertedTotal other.2
  registry : one.1.registry = other.1.registry

theorem leadRules_of_perm (directory : Option String) (h : first.Perm second) :
    (leadRules directory first).Perm (leadRules directory second) := by
  refine (List.perm_ext_iff_of_nodup (nodup_leadRules ..) (nodup_leadRules ..)).mpr fun rule => ?_
  simp only [mem_leadRules, h.mem_iff]

theorem length_flatten_newRules (directory : Option String) (calls : List Call) :
    (newRules directory calls).flatten.length = (leadRules directory calls).length :=
  (List.reverse_perm _).flatten.length_eq.symm

/-- Two orders of the same calls lead to the same draft up to the order of the rules, if the calls
insert names at different offsets, all of them between two characters. -/
theorem alikeButForLead_of_perm {source : String} {calls : List Call} (registry : Registry)
    (hnodup : (calls.filterMap (·.use.spliceAt)).Nodup)
    (hboundary : ∀ call ∈ calls, ∀ offset, call.use.spliceAt = some offset →
      Text.isBoundary offset source.toList = true)
    (hfirst : first.Perm calls) (hsecond : second.Perm calls) :
    AlikeButForLead tools options calls
      (applyCalls tools options first (.ofSource source registry))
      (applyCalls tools options second (.ofSource source registry)) := by
  have hperm := hfirst.trans hsecond.symm
  have hreports {order : List Call} (horder : order.Perm calls) :=
    exists_reports_of_applyCalls tools options (.ofSource source registry)
      fun call hmem => hboundary call (horder.mem_iff.mp hmem)
  obtain ⟨-, hfirstInserted⟩ := lead_applyCalls tools options source registry first
  obtain ⟨-, hsecondInserted⟩ := lead_applyCalls tools options source registry second
  have hrules := leadRules_of_perm options.directory hperm
  refine ⟨?_, ?_, ?_, ?_, ?_⟩
  · intro outcome hmem
    rcases List.mem_append.mp hmem with hmem | hmem
    · exact hreports hfirst outcome hmem
    · exact hreports hsecond outcome hmem
  · refine ⟨leadRules options.directory first, leadRules options.directory second, hrules,
      nodup_leadRules .., fun rule => ?_, lead_applyCalls_ofSource .., lead_applyCalls_ofSource ..⟩
    simp only [mem_leadRules, hfirst.mem_iff]
  · refine ⟨_, rfl, ?_⟩
    rw [Overlay.render, source_applyCalls, source_applyCalls]
    congr 2
    refine weave_congr (fun offset => ?_) ..
    rw [insertedAt_applyCalls (hreports hsecond), insertedAt_applyCalls (hreports hfirst),
      namesAt_of_perm hperm ((hfirst.filterMap _).nodup_iff.mpr hnodup)]
  · rw [insertedTotal_eq hfirstInserted (hreports hfirst),
      insertedTotal_eq hsecondInserted (hreports hsecond), length_flatten_newRules,
      length_flatten_newRules, hrules.length_eq]
  · rw [registry_applyCalls, registry_applyCalls]
    exact Registry.insertAll_of_perm (hperm.filterMap _) _

/-- The order in which answers are applied affects only the order of the rules in front of the
stylesheet. Let the uses of a stylesheet be answered, or some of them. In whatever two orders the
answers are applied to it, no call fails, the text behind the lead is the same, the lead is made of
the same finished rules, as many are reported as inserted, and the registry ends the same. -/
theorem order_of_application {source : String} {nodes : List Css.Node} {declared : Names}
    {customProperties : Bool} {uses : List FamilyUse} (h : Css.Sheet.ofText? source = .ok nodes)
    (huses : Css.familyUses nodes declared customProperties = .ok uses) (tools : Tools)
    (options : Options) (registry : Registry) (answers : List (Option Family))
    (hfirst : first.Perm (answered uses answers)) (hsecond : second.Perm (answered uses answers)) :
    AlikeButForLead tools options (answered uses answers)
      (applyCalls tools options first (.ofSource source registry))
      (applyCalls tools options second (.ofSource source registry)) := by
  have hsublist := uses_answered uses answers
  have hincreasing := (Css.spliceOffsets_of_familyUses h huses).2
  have hnodup : ((answered uses answers).filterMap (·.use.spliceAt)).Nodup := by
    have hoffsets := hsublist.filterMap FamilyUse.spliceAt
    rw [List.filterMap_map] at hoffsets
    exact (hincreasing.imp Nat.ne_of_lt).sublist hoffsets
  refine alikeButForLead_of_perm registry hnodup (fun call hmem => ?_) hfirst hsecond
  exact Css.boundary_of_familyUses h huses call.use
    (hsublist.subset (List.mem_map_of_mem hmem))

/-- Both uses of one family generate the same rules, and either of them may come first. -/
theorem order_of_application_of_two_answers :
    let family : Family := ⟨[.ofSources [.url "/f.woff2" none none]], ["Arial"], none⟩
    let tools : Tools := ⟨.passthrough, fun _ _ => true⟩
    let options : Options := ⟨"a.css", true, false, none, none⟩
    let source := "a \x7b font: 1em x, é \x7d b \x7b font-family: x \x7d"
    ∃ nodes uses, Css.Sheet.ofText? source = .ok nodes ∧
      Css.familyUses nodes ∅ false = .ok uses ∧
      uses.map FamilyUse.family = ["x", "x"] ∧
      let calls := answered uses [some family, some family]
      AlikeButForLead tools options calls
        (applyCalls tools options calls (.ofSource source .empty))
        (applyCalls tools options calls.reverse (.ofSource source .empty)) := by
  intro family tools options source
  obtain ⟨nodes, uses, hnodes, huses, hfamilies⟩ :
      ∃ nodes uses, Css.Sheet.ofText? source = .ok nodes ∧
        Css.familyUses nodes ∅ false = .ok uses ∧ uses.map FamilyUse.family = ["x", "x"] := by
    apply Css.exists_uses_of_map
    decide +kernel
  refine ⟨nodes, uses, hnodes, huses, hfamilies, ?_⟩
  exact order_of_application hnodes huses tools options .empty [some family, some family]
    (List.Perm.refl _) (List.reverse_perm _)

end Draft

end WebFonts
