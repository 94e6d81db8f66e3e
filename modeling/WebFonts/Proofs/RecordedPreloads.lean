import WebFonts.Proofs.Replies

/-!
# Which preloads a revision records

A revision that succeeds records for its asset one address for each reply that brings one: the first
remote address of the first face of the family, if the policy accepts this face
(`Reply.preloaded?_eq_some_iff`). Together they are added to the registry, where nothing else
changes (`Reviser.revision_records_preloads`).
-/

namespace WebFonts

open Draft (Call)

/-! ### The address that a reply brings -/

/-- The first remote address of a face stands behind sources that are installed fonts. -/
theorem Face.firstAddress?_eq_some_iff {face : Face} {address : String} :
    face.firstAddress? = some address ↔
      ∃ before format tech behind, face.sources = before ++ .url address format tech :: behind ∧
        ∀ source ∈ before, ∃ name, source = .installed name := by
  have hnone (source : Source) : source.address? = none ↔ ∃ name, source = .installed name := by
    cases source <;> simp [Source.address?]
  have hsome (source : Source) :
      source.address? = some address ↔ ∃ format tech, source = .url address format tech := by
    cases source <;> simp [Source.address?]
  unfold firstAddress?
  rw [List.findSome?_eq_some_iff]
  simp only [hnone, hsome]
  constructor
  · rintro ⟨before, source, behind, hsources, ⟨format, tech, rfl⟩, hbefore⟩
    exact ⟨before, format, tech, behind, hsources, hbefore⟩
  · rintro ⟨before, format, tech, behind, hsources, hbefore⟩
    exact ⟨before, _, behind, hsources, ⟨format, tech, rfl⟩, hbefore⟩

/-- A reply brings an address to preload: the family has a face, the policy accepts the first one,
and the address is that of its first remote source. -/
def Reply.Preloads (policy : PreloadPolicy) (reply : Reply) (address : String) : Prop :=
  ∃ family face others, reply.answer = .found family ∧ family.faces = face :: others ∧
    policy reply.use.family face = true ∧
    ∃ before format tech behind, face.sources = before ++ .url address format tech :: behind ∧
      ∀ source ∈ before, ∃ name, source = .installed name

theorem Draft.preloadAddress?_eq_some_iff {policy : PreloadPolicy} {name address : String}
    {family : Family} :
    preloadAddress? policy name family = some address ↔
      ∃ face others, family.faces = face :: others ∧ policy name face = true ∧
        face.firstAddress? = some address := by
  unfold preloadAddress?
  cases family.faces with
  | nil => simp
  | cons face others =>
    cases haccepts : policy name face <;> simp [haccepts]

theorem Reply.preloaded?_eq_some_iff {policy : PreloadPolicy} {reply : Reply} {address : String} :
    reply.preloaded? policy = some address ↔ reply.Preloads policy address := by
  unfold preloaded? Preloads
  simp only [Option.bind_eq_some_iff, call?_eq_some_iff, Call.preloaded?,
    Draft.preloadAddress?_eq_some_iff, Face.firstAddress?_eq_some_iff]
  constructor
  · rintro ⟨call, ⟨huse, hanswer⟩, face, others, hfaces, haccepts, hfirst⟩
    exact ⟨call.family, face, others, hanswer, hfaces, huse ▸ haccepts, hfirst⟩
  · rintro ⟨family, face, others, hanswer, hfaces, haccepts, hfirst⟩
    exact ⟨⟨reply.use, family⟩, ⟨rfl, hanswer⟩, face, others, hfaces, haccepts, hfirst⟩

/-! ### Revisions -/

namespace Reviser

variable {reviser : Reviser} {lookups : Lookups} {options : Options}

/-- A revision that succeeds adds to the addresses of its asset exactly those that the replies to
its lookups bring. The other assets keep their entries, and its own asset has one afterwards exactly
if it had one before or has an address now. -/
theorem revision_records_preloads {css : String} {registry registry' : Registry}
    {overlay : Overlay}
    (h : reviser.reviseBy lookups options css registry = (registry', .ok overlay)) :
    ∃ uses, usesOf? css options.customProperties = .ok uses ∧
      (∀ address, address ∈ registry'.addresses options.asset ↔
        address ∈ registry.addresses options.asset ∨
          ∃ reply ∈ lookups.replies uses, reply.Preloads reviser.tools.preload address) ∧
      (∀ other, other ≠ options.asset → registry'.assets[other]? = registry.assets[other]?) ∧
      (options.asset ∈ registry'.assets ↔
        options.asset ∈ registry.assets ∨
          ∃ address, address ∈ registry'.addresses options.asset) := by
  obtain ⟨uses, huses, -, -, -, hregistry, -⟩ := reviseBy_runs h
  have hinserted : registry' = registry.insertAll options.asset
      ((lookups.replies uses).filterMap (Reply.preloaded? reviser.tools.preload)) := by
    rw [hregistry, Draft.registry_applyCalls, Lookups.calls, List.filterMap_filterMap]
    rfl
  subst hinserted
  refine ⟨uses, huses, fun address => ?_, fun other hne => ?_, ?_⟩
  · rw [Registry.mem_addresses_insertAll, List.mem_filterMap]
    simp only [Reply.preloaded?_eq_some_iff]
  · exact Registry.getElem?_insertAll_of_ne hne
  · constructor
    · intro hentry
      refine (Registry.mem_assets_insertAll.mp hentry).imp_right fun hne => ?_
      obtain ⟨address, haddress⟩ := List.exists_mem_of_ne_nil _ hne
      exact ⟨address, Registry.mem_addresses_insertAll.mpr (.inr haddress)⟩
    · rintro (hentry | ⟨address, haddress⟩)
      · exact Registry.mem_assets_insertAll.mpr (.inl hentry)
      · exact Registry.mem_assets_of_mem_addresses haddress

/-- A reviser that knows two families, and preloads the faces of one of them. -/
def preloadingOne : Reviser where
  resolver family _ :=
    if family = "Foo" then
      .found ⟨[.ofSources [.installed "Foo", .url "/f.woff2" none none, .url "/f.ttf" none none],
        .ofSources [.url "/g.woff2" none none]], [], none⟩
    else .found ⟨[.ofSources [.url "/b.woff2" none none]], [], none⟩
  tools := ⟨.passthrough, fun name _ => name = "Foo"⟩
  hasExecutor := true

/-- Two of the three uses bring the same address, the other one none. -/
theorem revision_records_preloads_of_three_uses :
    let css := "a\x7bfont-family:Foo\x7db\x7bfont-family:Bar\x7dc\x7bfont-family:Foo\x7d"
    let registry := (Registry.empty.insert "a.css" "/old.woff2").insert "b.css" "/o.woff2"
    ∃ (registry' : Registry) (uses : List Css.FamilyUse), usesOf? css false = .ok uses ∧
      (registry'.addresses "a.css").toList = ["/f.woff2", "/old.woff2"] ∧
      (∀ address, address ∈ registry'.addresses "a.css" ↔
        address ∈ registry.addresses "a.css" ∨
          ∃ reply ∈ (Lookups.inOrder preloadingOne.resolver).replies uses,
            reply.Preloads preloadingOne.tools.preload address) ∧
      registry'.assets["b.css"]? = registry.assets["b.css"]? := by
  intro css registry
  have haddresses : ((preloadingOne.revise ⟨"a.css", true, false, none, none⟩ css
      registry).1.addresses "a.css").toList = ["/f.woff2", "/old.woff2"] := by
    decide +kernel
  have hdone : (preloadingOne.revise ⟨"a.css", true, false, none, none⟩ css registry).2.map
      (fun _ => ()) = .ok () := by
    decide +kernel
  generalize hrun : preloadingOne.revise _ _ _ = run at haddresses hdone
  obtain ⟨registry', outcome⟩ := run
  cases outcome with
  | error fault => cases hdone
  | ok overlay =>
    obtain ⟨uses, huses, hmem, hothers, -⟩ := revision_records_preloads hrun
    exact ⟨registry', uses, huses, haddresses, hmem, hothers "b.css" (by decide)⟩

end Reviser

end WebFonts
