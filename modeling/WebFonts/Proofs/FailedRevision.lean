import WebFonts.Proofs.Replies

/-!
# What a failed revision leaves behind

The overlay of a revision that fails is lost, but not what was recorded before. The replies that
came in before the one that failed were all entered; for those with a family, the address to preload
stays in the registry (`registry_of_failed_revision`). A text that is not read, and a missing
executor, leave the registry as it is.
-/

namespace WebFonts

open Css (FamilyUse)

namespace Reviser

variable {reviser : Reviser} {lookups : Lookups} {options : Options}

/-- Why a revision fails, and which replies were entered by then. -/
inductive FailsBehind (reviser : Reviser) (lookups : Lookups) (options : Options) (css : String) :
    List Reply → RevisionFault → Prop
  | parse {fault : Css.Fault} (h : usesOf? css options.customProperties = .error fault) :
    FailsBehind reviser lookups options css [] (.parse fault)
  | noExecutor {uses : List FamilyUse} (huses : usesOf? css options.customProperties = .ok uses)
    (hne : uses ≠ []) (h : reviser.hasExecutor = false) :
    FailsBehind reviser lookups options css [] .noExecutor
  | lookup {uses : List FamilyUse} {before rest : List Reply} {reply : Reply}
    {fault : RevisionFault} (huses : usesOf? css options.customProperties = .ok uses)
    (hexecutor : reviser.hasExecutor = true)
    (hreplies : lookups.replies uses = before ++ reply :: rest)
    (hbefore : ∀ earlier ∈ before, earlier.fault? = none) (h : reply.fault? = some fault) :
    FailsBehind reviser lookups options css before fault

/-- A revision that fails leaves in the registry what it recorded before it failed: the addresses of
the families found by the replies in front of the one that was a failure, and no others. -/
theorem registry_of_failed_revision {css : String} {registry registry' : Registry}
    {fault : RevisionFault}
    (h : reviser.reviseBy lookups options css registry = (registry', .error fault)) :
    ∃ before, reviser.FailsBehind lookups options css before fault ∧
      registry' = registry.insertAll options.asset
        (before.filterMap (Reply.preloaded? reviser.tools.preload)) := by
  have hinsert := reviser.reviseBy_ne_insert options lookups css registry
  rw [h] at hinsert
  unfold reviseBy at h
  split at h
  · rename_i huses
    cases h
    exact ⟨[], .parse huses, rfl⟩
  · cases h
  · rename_i uses hne huses
    split at h
    · rename_i hexecutor
      generalize hrun : Draft.enterAll _ _ _ (Draft.ofSource css registry) = run at h
      obtain ⟨draft, outcome⟩ := run
      cases outcome with
      | ok done => cases h
      | error fault =>
        cases h
        obtain ⟨before, reply, rest, hreplies, hbefore, ⟨hfault, rfl⟩ | ⟨refusal, rfl⟩⟩ :=
          Draft.enterAll_eq_error hrun
        · refine ⟨before, .lookup huses hexecutor hreplies hbefore hfault, ?_⟩
          rw [Draft.registry_applyCalls, List.filterMap_filterMap]
          rfl
        · exact absurd rfl (hinsert refusal)
    · rename_i hexecutor
      cases h
      exact ⟨[], .noExecutor huses hne (eq_false_of_ne_true hexecutor), rfl⟩

/-- A reviser that knows one family, and breaks down at every other one. -/
def knowingOne (name address : String) : Reviser where
  resolver family _ :=
    if family = name then .found ⟨[.ofSources [.url address none none]], [], none⟩ else .crashed
  tools := ⟨.passthrough, fun _ _ => true⟩
  hasExecutor := true

/-- The second use of this stylesheet makes the revision fail, after the first one was applied. -/
theorem exists_revise_knowingOne :
    ∃ registry, (knowingOne "Foo" "/f.woff2").revise ⟨"a.css", true, false, none, none⟩
        "a\x7bfont-family:Foo\x7db\x7bfont-family:Bar\x7d" .empty =
          (registry, .error .crashed) ∧
      (registry.addresses "a.css").toList = ["/f.woff2"] := by
  have haddresses : (((knowingOne "Foo" "/f.woff2").revise ⟨"a.css", true, false, none, none⟩
      "a\x7bfont-family:Foo\x7db\x7bfont-family:Bar\x7d" .empty).1.addresses "a.css").toList =
        ["/f.woff2"] := by
    decide +kernel
  have hfault : ((knowingOne "Foo" "/f.woff2").revise ⟨"a.css", true, false, none, none⟩
      "a\x7bfont-family:Foo\x7db\x7bfont-family:Bar\x7d" .empty).2.map (fun _ => ()) =
        .error .crashed := by
    decide +kernel
  generalize (knowingOne "Foo" "/f.woff2").revise _ _ _ = run at hfault haddresses
  obtain ⟨registry, outcome⟩ := run
  cases outcome with
  | ok overlay => cases hfault
  | error fault =>
    cases hfault
    exact ⟨registry, rfl, haddresses⟩

/-- The address of the first use is what the registry holds. -/
theorem registry_of_failed_revision_of_second_use :
    let reviser := knowingOne "Foo" "/f.woff2"
    ∃ registry before, (registry.addresses "a.css").toList = ["/f.woff2"] ∧
      reviser.FailsBehind (.inOrder reviser.resolver) ⟨"a.css", true, false, none, none⟩
        "a\x7bfont-family:Foo\x7db\x7bfont-family:Bar\x7d" before .crashed ∧
      registry = Registry.empty.insertAll "a.css"
        (before.filterMap (Reply.preloaded? reviser.tools.preload)) := by
  obtain ⟨registry, hrun, haddresses⟩ := exists_revise_knowingOne
  obtain ⟨before, hfails, hregistry⟩ := registry_of_failed_revision hrun
  exact ⟨registry, before, haddresses, hfails, hregistry⟩

/-- A revision that fails may leave an address behind. -/
theorem failed_revision_keeps_address :
    ¬ ∀ (reviser : Reviser) (options : Options) (css : String) (registry registry' : Registry)
      (fault : RevisionFault), reviser.revise options css registry = (registry', .error fault) →
        registry' = registry := by
  intro h
  obtain ⟨registry, hrun, haddresses⟩ := exists_revise_knowingOne
  rw [h _ _ _ _ _ _ hrun] at haddresses
  cases haddresses

end Reviser

end WebFonts
