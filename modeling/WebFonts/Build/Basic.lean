import WebFonts.Build.Name
import WebFonts.Revision.Basic
import WebFonts.Settings

/-!
# A build

A build revises the stylesheets that its host hands to it, one module at a time and then the
assets of the whole bundle, and keeps a registry of what is to be preloaded with each of them.
-/

namespace WebFonts

/-- A build under way. -/
structure Build where
  settings : Settings
  reviser : Reviser
  registry : Registry
  /-- What the minifier is asked to do, once the host has told. -/
  hostMinify : Option (Option MinifySettings)

/-- A file of the bundle. -/
structure Asset where
  name : String
  text : String
deriving Repr, DecidableEq

namespace Build

/-- Begins a build. It needs a resolver and settings with known generic families. -/
def create? (settings : Settings) (resolver : Option Resolver) (tools : Tools)
    (registry : Registry) : Except SettingsFault Build :=
  match resolver with
  | none => .error .noResolver
  | some resolver => do
    let _ ← settings.readFallbacks
    return ⟨settings, ⟨resolver, tools, true⟩, registry, none⟩

/-! ### Minification -/

/-- What the minifier is asked to do by a host that names its targets. -/
def minifyFor (settings : Settings) (targets : List String) (minify : Bool) :
    Option MinifySettings :=
  if !minify then none
  else if targets.isEmpty then some settings.minify
  else some { settings.minify with targets }

/-- Takes the targets of the host, and whether it minifies. Only the first time counts, and none
during development. -/
def configure (targets : List String) (minify : Bool) (build : Build) : Build :=
  if build.settings.dev || build.hostMinify.isSome then build
  else { build with hostMinify := some (minifyFor build.settings targets minify) }

/-- What the minifier is asked to do. -/
def minify (build : Build) : Option MinifySettings :=
  if build.settings.dev then none else build.hostMinify.getD (some build.settings.minify)

/-! ### Revising -/

/-- The options under which an asset is revised. -/
def options (build : Build) (asset : String) (directory : Option String) : Options :=
  ⟨asset, build.settings.dev, build.settings.customProperties, directory, build.minify⟩

/-- Revises a text for an asset, with lookups that end as given. Gives the new text if anything was
inserted. -/
def reviseBy (lookups : Lookups) (build : Build) (asset : String) (directory : Option String)
    (text : String) : Build × Except RevisionFault (Option String) :=
  let (registry, outcome) :=
    build.reviser.reviseBy lookups (build.options asset directory) text build.registry
  ({ build with registry },
    outcome.map fun overlay => if overlay.isChanged then some overlay.render else none)

/-- How the lookups of a build end if nothing else is said: in the order of the uses. -/
def lookups (build : Build) : Lookups :=
  .inOrder build.reviser.resolver

/-- Revises a module, with lookups that end as given. Gives its new text if it is a stylesheet and
anything was inserted. -/
def reviseModuleBy (lookups : Lookups) (name code : String) (build : Build) :
    Build × Except RevisionFault (Option String) :=
  if isStylesheet name then build.reviseBy lookups name none code else (build, .ok none)

/-- Revises a module. -/
def reviseModule (name code : String) (build : Build) :
    Build × Except RevisionFault (Option String) :=
  reviseModuleBy build.lookups name code build

/-- Preloads with the module in front of a chunk what its modules preload, and tells how many
addresses are new. -/
def shareChunk (facade : Option String) (modules : List String) (build : Build) : Build × Nat :=
  match facade with
  | none => (build, 0)
  | some facade =>
    let (registry, added) := build.registry.merge facade modules
    ({ build with registry }, added)

/-- Revises the stylesheets among the assets of a bundle, with addresses relative to the directory
of each and with lookups that end as given for each. Tells how many changed. A failure leaves the
assets behind it as they are. -/
def reviseAssetsBy : List (Asset × Lookups) → Build → Build × List Asset × Except RevisionFault Nat
  | [], build => (build, [], .ok 0)
  | (asset, lookups) :: rest, build =>
    if isStylesheetAsset asset.name then
      match build.reviseBy lookups asset.name (some (directory asset.name)) asset.text with
      | (build, .error fault) => (build, asset :: rest.map Prod.fst, .error fault)
      | (build, .ok none) =>
        let (build, later, count) := reviseAssetsBy rest build
        (build, asset :: later, count)
      | (build, .ok (some text)) =>
        let (build, later, count) := reviseAssetsBy rest build
        (build, { asset with text } :: later, count.map (· + 1))
    else
      let (build, later, count) := reviseAssetsBy rest build
      (build, asset :: later, count)

/-- Revises the assets of a bundle. -/
def reviseAssets (assets : List Asset) (build : Build) :
    Build × List Asset × Except RevisionFault Nat :=
  reviseAssetsBy (assets.map (·, build.lookups)) build

/-- The addresses to preload with an asset, in the order of their bytes. -/
def preloads (build : Build) (asset : String) : List String :=
  (build.registry.addresses asset).toList

end Build

end WebFonts
