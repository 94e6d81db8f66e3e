import WebFonts.Proofs.BundleRevision

/-!
# What a build keeps of its history

A host calls the hooks of a build in any order, any number of times. `run_keeps_first_host` says
what a run of calls leaves that a later revision can see: what the host told first, of its targets
and of its minifier, and nothing else.

A call changes a build in two ways: it takes what the host tells (`told`), which counts only once
(`told_told`), and it leaves another registry (`exists_after_eq`, `exists_run_eq`). Revisions do not
see the registry (`snd_reviseModuleBy_withRegistry`, `snd_reviseAssetsBy_withRegistry`).
-/

namespace WebFonts.Build

/-! ### Calls -/

/-- A call of the host. The lookups that it starts end as given. -/
inductive Hook where
  | configure (targets : List String) (minify : Bool)
  | reviseModule (lookups : Lookups) (name code : String)
  | shareChunk (facade : Option String) (modules : List String)
  | reviseAssets (assets : List (Asset × Lookups))

/-- What a host tells of itself: its targets, and whether it minifies. -/
abbrev Host := List String × Bool

/-- What a call tells of the host. -/
def Hook.host? : Hook → Option Host
  | configure targets minify => some (targets, minify)
  | _ => none

/-- The build behind a call, also if the call fails. -/
def after (build : Build) : Hook → Build
  | .configure targets minify => build.configure targets minify
  | .reviseModule lookups name code => (build.reviseModuleBy lookups name code).1
  | .shareChunk facade modules => (build.shareChunk facade modules).1
  | .reviseAssets assets => (reviseAssetsBy assets build).1

/-- The build behind a run of calls. -/
def run (build : Build) (hooks : List Hook) : Build :=
  hooks.foldl after build

/-- A build that was told of its host, or was not told anything. -/
def told (build : Build) : Option Host → Build
  | none => build
  | some (targets, minify) => build.configure targets minify

/-- A build begins with its settings as they are, once the table of fallbacks can be read. -/
theorem create?_eq_ok_iff {settings : Settings} {resolver : Resolver} {tools : Tools}
    {registry : Registry} {build : Build} :
    create? settings (some resolver) tools registry = .ok build ↔
      ∃ table, settings.readFallbacks = .ok table ∧
        build = ⟨settings, ⟨resolver, tools, true⟩, registry, none⟩ := by
  unfold create?
  cases settings.readFallbacks with
  | error fault => simp [bind, Except.bind]
  | ok table => simp [bind, Except.bind, pure, Except.pure, eq_comm]

/-! ### What a call changes -/

variable {build : Build}

/-- What is told first counts. -/
theorem told_told (first later : Option Host) :
    (build.told first).told later = build.told (first.or later) := by
  cases first with
  | none => rfl
  | some host =>
    cases later with
    | none => rfl
    | some other =>
      show configure _ _ (configure _ _ build) = configure _ _ build
      by_cases hfixed : build.settings.dev || build.hostMinify.isSome
      · simp only [configure, if_pos hfixed]
      · have hsettled : (build.settings.dev || (some (minifyFor build.settings host.1
            host.2)).isSome) = true := by simp
        simp only [configure, if_neg hfixed, if_pos hsettled]

theorem told_withRegistry (registry : Registry) (host : Option Host) :
    (build.withRegistry registry).told host = (build.told host).withRegistry registry := by
  cases host with
  | none => rfl
  | some host =>
    obtain ⟨targets, minify⟩ := host
    show configure .. = (configure ..).withRegistry registry
    by_cases hfixed : build.settings.dev || build.hostMinify.isSome
    · rw [configure, configure, if_pos hfixed]
      exact if_pos hfixed
    · rw [configure, configure, if_neg hfixed]
      exact if_neg hfixed

theorem exists_reviseAssetsBy_eq (assets : List (Asset × Lookups)) (build : Build) :
    ∃ registry, (reviseAssetsBy assets build).1 = build.withRegistry registry := by
  induction assets generalizing build with
  | nil => exact ⟨build.registry, rfl⟩
  | cons first rest ih =>
    obtain ⟨asset, lookups⟩ := first
    rw [reviseAssetsBy]
    split
    · generalize hrun : build.reviseBy lookups asset.name _ asset.text = run
      have hbuild : run.1 = build.withRegistry run.1.registry := hrun ▸ rfl
      obtain ⟨after, outcome⟩ := run
      obtain ⟨registry, hrest⟩ := ih after
      dsimp only at hbuild
      rw [hbuild] at hrest ⊢
      cases outcome with
      | error fault => exact ⟨after.registry, rfl⟩
      | ok text => cases text <;> exact ⟨registry, hrest⟩
    · exact ih build

/-- A call takes what the host tells, and leaves another registry. -/
theorem exists_after_eq (build : Build) (hook : Hook) :
    ∃ registry, build.after hook = (build.told hook.host?).withRegistry registry := by
  cases hook with
  | configure targets minify => exact ⟨(build.configure targets minify).registry, rfl⟩
  | reviseModule lookups name code =>
    show ∃ registry, (build.reviseModuleBy lookups name code).1 = build.withRegistry registry
    unfold reviseModuleBy
    split
    · exact ⟨_, rfl⟩
    · exact ⟨build.registry, rfl⟩
  | shareChunk facade modules =>
    cases facade with
    | none => exact ⟨build.registry, rfl⟩
    | some facade => exact ⟨_, rfl⟩
  | reviseAssets assets => exact exists_reviseAssetsBy_eq assets build

/-- A run of calls takes what the host tells first, and leaves another registry. -/
theorem exists_run_eq (build : Build) (hooks : List Hook) :
    ∃ registry,
      build.run hooks = (build.told (hooks.findSome? Hook.host?)).withRegistry registry := by
  induction hooks generalizing build with
  | nil => exact ⟨build.registry, rfl⟩
  | cons hook hooks ih =>
    obtain ⟨_, hafter⟩ := build.exists_after_eq hook
    obtain ⟨registry, hrun⟩ := ih (build.after hook)
    rw [hafter, told_withRegistry, told_told] at hrun
    refine ⟨registry, ?_⟩
    show (build.after hook).run hooks = _
    rw [hafter, hrun, List.findSome?_cons]
    cases hook.host? <;> rfl

/-! ### What a revision sees -/

theorem snd_reviseModuleBy_withRegistry (registry : Registry) (build : Build) (lookups : Lookups)
    (name code : String) :
    (reviseModuleBy lookups name code (build.withRegistry registry)).2 =
      (reviseModuleBy lookups name code build).2 := by
  unfold reviseModuleBy
  split
  · exact snd_reviseBy_withRegistry ..
  · rfl

theorem snd_reviseAssetsBy_withRegistry (registry : Registry) (build : Build)
    (assets : List (Asset × Lookups)) :
    (reviseAssetsBy assets (build.withRegistry registry)).2 = (reviseAssetsBy assets build).2 := by
  generalize hrun : (reviseAssetsBy assets build).2 = run
  obtain ⟨after, outcome⟩ := run
  cases outcome with
  | error fault =>
    rw [reviseAssetsBy_eq_error_iff] at hrun ⊢
    rwa [revised_withRegistry]
  | ok count =>
    rw [reviseAssetsBy_eq_ok_iff] at hrun ⊢
    rwa [revised_withRegistry]

/-- The minifier is asked what the settings say, until the host has told of itself, and nothing
during development. -/
theorem minify_told (hnew : build.hostMinify = none) (host : Option Host) :
    (build.told host).minify =
      if build.settings.dev then none
      else match host with
        | none => some build.settings.minify
        | some (targets, minify) => minifyFor build.settings targets minify := by
  cases host with
  | none => simp [told, minify, hnew]
  | some host => cases hdev : build.settings.dev <;> simp [told, configure, minify, hnew, hdev]

/-- An asset that a bundle revises, it revises as it would alone. -/
theorem reviseAssetsBy_singleton {asset : Asset × Lookups} {asset' : Asset}
    (h : build.revised asset = .ok asset') :
    (reviseAssetsBy [asset] build).2 =
      ([asset'], .ok (if asset'.text = asset.1.text then 0 else 1)) := by
  rw [reviseAssetsBy_eq_ok_iff]
  refine ⟨.cons h .nil, ?_⟩
  by_cases hsame : asset'.text = asset.1.text <;> simp [hsame]

theorem isStylesheetAsset_iff {name : String} :
    isStylesheetAsset name = true ↔ ∃ stem, name = stem ++ ".css" := by
  rw [isStylesheetAsset, List.isSuffixOf_iff_suffix]
  constructor
  · rintro ⟨stem, hstem⟩
    exact ⟨String.ofList stem, String.toList_inj.mp (by simp [← hstem])⟩
  · rintro ⟨stem, rfl⟩
    exact ⟨stem.toList, String.toList_append.symm⟩

/-- **A build keeps nothing of its history that a revision can see but its host.** Behind any run
of calls, the minifier is asked what the first call says that told of the host, what the settings
say if there was none, and nothing during development. A module, or a bundle, is revised as by a
new build with any registry that was told of that host only. A bundle that is revised has all its
names, each of its assets is as it would be alone, those that are no stylesheets are left as they
are, and the assets with another text are counted. -/
theorem run_keeps_first_host {settings : Settings} {resolver : Resolver} {tools : Tools}
    {registry : Registry} {start : Build}
    (h : create? settings (some resolver) tools registry = .ok start)
    (hooks : List Hook) (registry' : Registry) :
    ∃ new, create? settings (some resolver) tools registry' = .ok new ∧
      let host := hooks.findSome? Hook.host?
      let later := start.run hooks
      let fresh := new.told host
      (later.minify =
        if settings.dev then none
        else match host with
          | none => some settings.minify
          | some (targets, minify) => minifyFor settings targets minify) ∧
      (∀ lookups name code,
        (reviseModuleBy lookups name code later).2 = (reviseModuleBy lookups name code fresh).2) ∧
      (∀ assets, (reviseAssetsBy assets later).2 = (reviseAssetsBy assets fresh).2) ∧
      ∀ assets after count, (reviseAssetsBy assets later).2 = (after, .ok count) →
        List.Forall₂ (fun asset asset' =>
          (reviseAssetsBy [asset] fresh).2 =
            ([asset'], .ok (if asset'.text = asset.1.text then 0 else 1)) ∧
          asset'.name = asset.1.name ∧
          (asset'.text ≠ asset.1.text → ∃ stem, asset.1.name = stem ++ ".css")) assets after ∧
        count = (assets.zip after).countP fun (asset, asset') => asset'.text ≠ asset.1.text := by
  obtain ⟨table, hread, rfl⟩ := create?_eq_ok_iff.mp h
  refine ⟨⟨settings, ⟨resolver, tools, true⟩, registry', none⟩,
    create?_eq_ok_iff.mpr ⟨table, hread, rfl⟩, ?_⟩
  intro host later fresh
  have hminify : fresh.minify = _ := minify_told rfl host
  have hsame : ∃ registry, later = fresh.withRegistry registry := by
    obtain ⟨last, hrun⟩ := exists_run_eq ⟨settings, ⟨resolver, tools, true⟩, registry, none⟩ hooks
    refine ⟨last, hrun.trans ?_⟩
    rw [← told_withRegistry, ← told_withRegistry]
    rfl
  clear_value later fresh
  obtain ⟨last, rfl⟩ := hsame
  refine ⟨?_, fun lookups name code => snd_reviseModuleBy_withRegistry .., fun assets =>
    snd_reviseAssetsBy_withRegistry .., fun assets after count hassets => ?_⟩
  · exact hminify
  · rw [snd_reviseAssetsBy_withRegistry, reviseAssetsBy_eq_ok_iff] at hassets
    refine hassets.imp_left fun hall => hall.imp fun asset asset' hrevised => ?_
    obtain ⟨hname, htext⟩ := revised_eq_ok hrevised
    exact ⟨reviseAssetsBy_singleton hrevised, hname, fun hne =>
      isStylesheetAsset_iff.mp (htext hne)⟩

/-- A module that cannot be revised, a second host and a merge come before this bundle. Its
stylesheet is revised as by a new build that was told of the first host only, which does not
minify. -/
theorem run_keeps_first_host_of_two :
    let reviser := Reviser.knowingOne "Foo" "/f.woff2"
    let lookups := Lookups.inOrder reviser.resolver
    let settings : Settings := { fallbacks := [] }
    let start : Build := ⟨settings, ⟨reviser.resolver, reviser.tools, true⟩, .empty, none⟩
    let hooks := [.reviseModule lookups "a.css" "a\x7b", .configure [] false,
      .configure ["safari 13"] true, .shareChunk (some "b.css") ["a.css"]]
    let sheet : Asset := ⟨"b.css", "a\x7bfont-family:Foo\x7d"⟩
    let rule := "@font-face \x7b\n  font-family: \"Foo\";\n  src: url(\"f.woff2\");\n" ++
      "  font-display: swap;\n\x7d"
    (start.run hooks).minify = none ∧
      (reviseAssetsBy [(sheet, lookups), (⟨"c.js", sheet.text⟩, lookups)] (start.run hooks)).2 =
        ([⟨"b.css", rule ++ sheet.text⟩, ⟨"c.js", sheet.text⟩], .ok 1) ∧
      ∃ new, create? settings (some reviser.resolver) reviser.tools .empty = .ok new ∧
        (reviseAssetsBy [(sheet, lookups)] (new.told (some ([], false)))).2 =
          ([⟨"b.css", rule ++ sheet.text⟩], .ok 1) := by
  intro reviser lookups settings start hooks sheet rule
  have hstart : create? settings (some reviser.resolver) reviser.tools .empty = .ok start :=
    create?_eq_ok_iff.mpr ⟨[], congrArg Except.ok List.mergeSort_nil, rfl⟩
  have hbundle :
      (reviseAssetsBy [(sheet, lookups), (⟨"c.js", sheet.text⟩, lookups)] (start.run hooks)).2 =
        ([⟨"b.css", rule ++ sheet.text⟩, ⟨"c.js", sheet.text⟩], .ok 1) := by
    decide +kernel
  obtain ⟨new, hnew, hminify, -, -, halone⟩ := run_keeps_first_host hstart hooks .empty
  obtain ⟨heach, -⟩ := halone _ _ _ hbundle
  cases heach with
  | cons hsheet _ => exact ⟨hminify, hbundle, new, hnew, hsheet.1⟩

end WebFonts.Build
