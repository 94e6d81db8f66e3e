import Mathlib.Data.List.Forall2
import WebFonts.Build.Basic
import WebFonts.Proofs.FailedRevision
import WebFonts.Proofs.WithoutFaces

/-!
# How a bundle is revised

The assets of a bundle are revised one after another, and the registry is all that one revision
passes on to the next. What becomes of a text does not depend on the registry
(`Reviser.snd_reviseBy_congr`), so each asset can be looked at on its own (`Build.revised`). A
bundle fails at its first asset that cannot be revised: that asset and those behind it stay as they
are, and those in front of it are revised, each of them whole
(`Build.reviseAssetsBy_eq_error_iff`). If there is no such asset, all of them are revised, and those
with another text are counted (`Build.reviseAssetsBy_eq_ok_iff`).
-/

namespace WebFonts

open Css (FamilyUse)

/-! ### The registry does not matter to the text -/

namespace Draft

/-- A draft with another registry. -/
def withRegistry (registry : Registry) (draft : Draft) : Draft :=
  { draft with registry }

theorem apply_withRegistry (tools : Tools) (options : Options) (use : FamilyUse) (family : Family)
    (registry : Registry) (draft : Draft) :
    ∃ registry', (draft.withRegistry registry).apply tools options use family =
      ((draft.apply tools options use family).1.withRegistry registry',
        (draft.apply tools options use family).2) := by
  refine ⟨((draft.withRegistry registry).apply tools options use family).1.registry, ?_⟩
  unfold apply
  dsimp only [withRegistry, recordPreload, insertRules]
  split
  · split <;> rfl
  · rfl

theorem enterAll_withRegistry (tools : Tools) (options : Options) (replies : List Reply)
    (registry : Registry) (draft : Draft) :
    ∃ registry', (draft.withRegistry registry).enterAll tools options replies =
      ((draft.enterAll tools options replies).1.withRegistry registry',
        (draft.enterAll tools options replies).2) := by
  induction replies generalizing registry draft with
  | nil => exact ⟨registry, rfl⟩
  | cons reply rest ih =>
    unfold enterAll
    split
    · exact ⟨registry, rfl⟩
    · exact ⟨registry, rfl⟩
    · exact ih registry draft
    · rename_i family hfound
      obtain ⟨registry', happly⟩ :=
        apply_withRegistry tools options reply.use family registry draft
      rw [happly]
      generalize draft.apply tools options reply.use family = applied
      obtain ⟨entered, outcome⟩ := applied
      cases outcome with
      | error fault => exact ⟨registry', rfl⟩
      | ok report => exact ih registry' entered

end Draft

/-- What becomes of a text does not depend on what was to be preloaded before. -/
theorem Reviser.snd_reviseBy_congr (reviser : Reviser) (lookups : Lookups) (options : Options)
    (css : String) (registry other : Registry) :
    (reviser.reviseBy lookups options css registry).2 =
      (reviser.reviseBy lookups options css other).2 := by
  unfold reviseBy
  split
  · rfl
  · rfl
  · split
    · rename_i uses _ _ _
      obtain ⟨registry', hrun⟩ := Draft.enterAll_withRegistry reviser.tools options
        (lookups.replies uses) registry (.ofSource css other)
      have hdraft : Draft.ofSource css registry =
          (Draft.ofSource css other).withRegistry registry :=
        rfl
      rw [hdraft, hrun]
      rfl
    · rfl

/-! ### One asset -/

namespace Build

/-- What a bundle makes of one asset: a stylesheet is revised for its own directory. -/
def revised (build : Build) : Asset × Lookups → Except RevisionFault Asset
  | (asset, lookups) =>
    if isStylesheetAsset asset.name then
      (build.reviseBy lookups asset.name (some (directory asset.name)) asset.text).2.map
        fun text => { asset with text := text.getD asset.text }
    else .ok asset

/-- A build with another registry. -/
def withRegistry (registry : Registry) (build : Build) : Build :=
  { build with registry }

theorem snd_reviseBy_withRegistry (registry : Registry) (build : Build) (lookups : Lookups)
    (asset : String) (directory : Option String) (text : String) :
    ((build.withRegistry registry).reviseBy lookups asset directory text).2 =
      (build.reviseBy lookups asset directory text).2 :=
  congrArg (Except.map _) (build.reviser.snd_reviseBy_congr ..)

theorem revised_withRegistry (registry : Registry) (build : Build) :
    (build.withRegistry registry).revised = build.revised := by
  funext (asset, lookups)
  unfold revised
  dsimp only
  rw [snd_reviseBy_withRegistry]

/-- A text that is given back is not the one that was revised. -/
theorem ne_of_reviseBy {build after : Build} {lookups : Lookups} {asset text text' : String}
    {directory : Option String}
    (h : build.reviseBy lookups asset directory text = (after, .ok (some text'))) :
    text' ≠ text := by
  have houtcome := congrArg Prod.snd h
  unfold reviseBy at houtcome
  generalize hrevise : build.reviser.reviseBy lookups _ text build.registry = revision at houtcome
  obtain ⟨registry, outcome⟩ := revision
  cases outcome with
  | error fault => cases houtcome
  | ok overlay =>
    obtain ⟨_, -, -, -, hoverlay, -, -⟩ := Reviser.reviseBy_runs hrevise
    have hsource : overlay.source = text := hoverlay ▸ Draft.source_applyCalls ..
    have hsound : overlay.Sound :=
      hoverlay ▸ Draft.sound_applyCalls (Overlay.sound_ofSource text) _
    simp only [Except.map, Except.ok.injEq, Option.ite_none_right_eq_some,
      Option.some.injEq] at houtcome
    obtain ⟨hchanged, rfl⟩ := houtcome
    rw [← hsource]
    exact (Overlay.isChanged_iff hsound).mp hchanged

/-- An asset keeps its name, and its text too unless it is a stylesheet. -/
theorem revised_eq_ok {build : Build} {asset : Asset × Lookups} {asset' : Asset}
    (h : build.revised asset = .ok asset') :
    asset'.name = asset.1.name ∧
      (asset'.text ≠ asset.1.text → isStylesheetAsset asset.1.name = true) := by
  obtain ⟨asset, lookups⟩ := asset
  unfold revised at h
  dsimp only at h
  split at h
  · rename_i hsheet
    generalize (build.reviseBy _ _ _ _).2 = outcome at h
    cases outcome with
    | error fault => cases h
    | ok text =>
      cases h
      exact ⟨rfl, fun _ => hsheet⟩
  · cases h
    exact ⟨rfl, fun hne => absurd rfl hne⟩

/-! ### All assets -/

/-- What one asset does to the revision of a bundle: it ends there, or goes on behind the asset with
another registry, and counts the asset if its text is another one. -/
theorem reviseAssetsBy_cons (first : Asset × Lookups) (rest : List (Asset × Lookups))
    (build : Build) :
    let run := (reviseAssetsBy (first :: rest) build).2
    match build.revised first with
    | .error fault => run = ((first :: rest).map Prod.fst, .error fault)
    | .ok asset' => ∃ registry,
      let later := (reviseAssetsBy rest (build.withRegistry registry)).2
      run = (asset' :: later.1,
        later.2.map (· + if asset'.text = first.1.text then 0 else 1)) := by
  have hkeep (outcome : Except RevisionFault Nat) : outcome = outcome.map (· + 0) := by
    cases outcome <;> rfl
  obtain ⟨asset, lookups⟩ := first
  unfold revised
  dsimp only
  rw [reviseAssetsBy]
  by_cases hsheet : isStylesheetAsset asset.name = true
  · rw [if_pos hsheet, if_pos hsheet]
    generalize hrun : build.reviseBy lookups asset.name _ asset.text = run
    have hbuild : run.1 = build.withRegistry run.1.registry := hrun ▸ rfl
    obtain ⟨after, outcome⟩ := run
    dsimp only at hbuild
    match outcome with
    | .error fault => rfl
    | .ok none =>
      refine ⟨after.registry, ?_⟩
      rw [← hbuild]
      exact Prod.ext rfl ((hkeep _).trans (by simp))
    | .ok (some text) =>
      refine ⟨after.registry, ?_⟩
      rw [← hbuild]
      simp [ne_of_reviseBy hrun]
  · rw [if_neg hsheet, if_neg hsheet]
    refine ⟨build.registry, Prod.ext rfl ((hkeep _).trans ?_)⟩
    simp only [if_true]
    rfl

/-- A bundle fails at an asset that cannot be revised, if all assets in front of it can be. -/
theorem reviseAssetsBy_of_failing {before : List (Asset × Lookups)} {done : List Asset}
    {failing : Asset × Lookups} {build : Build} {fault : RevisionFault}
    (hdone : List.Forall₂ (fun asset asset' => build.revised asset = .ok asset') before done)
    (hfailing : build.revised failing = .error fault) (rest : List (Asset × Lookups)) :
    (reviseAssetsBy (before ++ failing :: rest) build).2 =
      (done ++ (failing :: rest).map Prod.fst, .error fault) := by
  induction before generalizing build done with
  | nil =>
    cases hdone
    have hstep := reviseAssetsBy_cons failing rest build
    rw [hfailing] at hstep
    exact hstep
  | cons asset before ih =>
    cases hdone with
    | cons hfirst hothers =>
      have hstep := reviseAssetsBy_cons asset (before ++ failing :: rest) build
      rw [hfirst] at hstep
      obtain ⟨registry, hrun⟩ := hstep
      -- behind the asset, the build differs in its registry only
      rw [← build.revised_withRegistry registry] at hothers hfailing
      rw [ih hothers hfailing] at hrun
      exact hrun

/-- A bundle that fails does so at its first asset that cannot be revised. -/
theorem exists_failing_of_reviseAssetsBy {assets : List (Asset × Lookups)} {after : List Asset}
    {build : Build} {fault : RevisionFault}
    (h : (reviseAssetsBy assets build).2 = (after, .error fault)) :
    ∃ before failing rest done, assets = before ++ failing :: rest ∧
      List.Forall₂ (fun asset asset' => build.revised asset = .ok asset') before done ∧
      build.revised failing = .error fault ∧
      after = done ++ (failing :: rest).map Prod.fst := by
  induction assets generalizing after build with
  | nil => cases h
  | cons asset assets ih =>
    have hstep := reviseAssetsBy_cons asset assets build
    cases hrevised : build.revised asset with
    | error first =>
      rw [hrevised] at hstep
      cases hstep.symm.trans h
      exact ⟨[], asset, assets, [], rfl, .nil, hrevised, rfl⟩
    | ok asset' =>
      rw [hrevised] at hstep
      obtain ⟨registry, hrun⟩ := hstep
      generalize hlater : (reviseAssetsBy assets (build.withRegistry registry)).2 = later at hrun
      obtain ⟨behind, outcome⟩ := later
      cases outcome with
      | ok count => cases hrun.symm.trans h
      | error fault' =>
        cases hrun.symm.trans h
        obtain ⟨before, failing, rest, done, rfl, hdone, hfailing, rfl⟩ := ih hlater
        rw [revised_withRegistry] at hdone hfailing
        exact ⟨asset :: before, failing, rest, asset' :: done, rfl, .cons hrevised hdone,
          hfailing, rfl⟩

/-- A bundle fails exactly where one of its assets cannot be revised, at the first such asset. The
assets in front of it are then revised, each of them whole; it and those behind it stay as they
are. -/
theorem reviseAssetsBy_eq_error_iff {assets : List (Asset × Lookups)} {after : List Asset}
    {build : Build} {fault : RevisionFault} :
    (reviseAssetsBy assets build).2 = (after, .error fault) ↔
      ∃ before failing rest done, assets = before ++ failing :: rest ∧
        List.Forall₂ (fun asset asset' => build.revised asset = .ok asset') before done ∧
        build.revised failing = .error fault ∧
        after = done ++ (failing :: rest).map Prod.fst := by
  constructor
  · exact exists_failing_of_reviseAssetsBy
  · rintro ⟨before, failing, rest, done, rfl, hdone, hfailing, rfl⟩
    exact reviseAssetsBy_of_failing hdone hfailing rest

/-- A bundle is revised exactly where each of its assets can be revised. Those with another text are
counted. -/
theorem reviseAssetsBy_eq_ok_iff {assets : List (Asset × Lookups)} {after : List Asset}
    {build : Build} {count : Nat} :
    (reviseAssetsBy assets build).2 = (after, .ok count) ↔
      List.Forall₂ (fun asset asset' => build.revised asset = .ok asset') assets after ∧
        count = (assets.zip after).countP fun (asset, asset') => asset'.text ≠ asset.1.text := by
  induction assets generalizing after build count with
  | nil =>
    constructor
    · intro h
      cases h
      exact ⟨.nil, rfl⟩
    · rintro ⟨hafter, rfl⟩
      cases hafter
      rfl
  | cons asset assets ih =>
    have hstep := reviseAssetsBy_cons asset assets build
    cases hrevised : build.revised asset with
    | error first =>
      rw [hrevised] at hstep
      rw [hstep]
      constructor
      · intro h
        cases h
      · rintro ⟨hafter, -⟩
        cases hafter with
        | cons hfirst _ => cases hrevised.symm.trans hfirst
    | ok asset' =>
      rw [hrevised] at hstep
      obtain ⟨registry, hrun⟩ := hstep
      rw [hrun]
      have ih' (behind : List Asset) (count : Nat) := @ih behind (build.withRegistry registry) count
      rw [revised_withRegistry] at ih'
      generalize (reviseAssetsBy assets (build.withRegistry registry)).2 = later at ih'
      obtain ⟨behind, outcome⟩ := later
      constructor
      · intro h
        cases outcome with
        | error fault => cases h
        | ok later =>
          cases h
          obtain ⟨hbehind, rfl⟩ := (ih' behind later).mp rfl
          refine ⟨.cons hrevised hbehind, ?_⟩
          simp [List.countP_cons]
      · rintro ⟨hafter, rfl⟩
        cases hafter with
        | cons hfirst hbehind =>
          cases hrevised.symm.trans hfirst
          cases (ih' _ _).mpr ⟨hbehind, rfl⟩
          simp [List.countP_cons, Except.map]

/-- The first of two assets is revised, although the second one fails. -/
theorem failed_bundle_keeps_revised_asset :
    ¬ ∀ (assets after : List Asset) (build : Build) (fault : RevisionFault),
      (reviseAssets assets build).2 = (after, .error fault) → after = assets := by
  intro h
  have hfails : (reviseAssets [⟨"a.css", "a\x7bfont-family:Foo\x7d"⟩, ⟨"b.css", "a\x7b"⟩]
      ⟨{ dev := true }, .knowingOne "Foo" "/f.woff2", .empty, none⟩).2 =
        ([⟨"a.css", "@font-face \x7b\n  font-family: \"Foo\";\n  src: url(\"f.woff2\");\n" ++
          "  font-display: swap;\n\x7d\na\x7bfont-family:Foo\x7d"⟩, ⟨"b.css", "a\x7b"⟩],
          .error (.parse ⟨.unterminatedBlock, 1⟩)) := by
    decide +kernel
  exact absurd (h _ _ _ _ hfails) (by decide)

end Build

end WebFonts
