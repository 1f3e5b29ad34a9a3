import ResourceVersions.Api.Document
import ResourceVersions.FileStore
import ResourceVersions.Json.Reader
import ResourceVersions.Registry.Basic

/-!
# Loading a registry

The versions of a manifest are registered from their files, oldest first. Deprecated versions
are passed over.
-/
namespace ResourceVersions.Registry

/-- The API of a file, with the ignore rules of a configuration. -/
def loadApi (store : FileStore) (path : FilePath) (config : Config) : Attempt Api := do
  match store.read path.text with
  | .error fault => throw (.schema (.unreadable path.text fault))
  | .ok text =>
    match Json.read? text with
    | none => throw (.schema (.notJson path.text))
    | some d => Api.ofDocument d config.ignore.shapes config.ignore.paths

/-- The configuration of a version; without a file nothing is configured. -/
def loadConfig (store : FileStore) (manifest : Manifest) (info : VersionInfo) :
    Except ConfigError Config :=
  match info.config?.filter (!·.isEmpty) with
  | none => .ok {}
  | some path => store.config { path? := some (manifest.resolve path).text }

/-- The paths of all files that a manifest names. -/
def filesOf (manifest : Manifest) : List String :=
  manifest.versions.values.flatMap fun info =>
    (info.config?.toList ++ info.api?.toList).map fun path => (manifest.resolve path).text

/-- Registers one version of a manifest. -/
def loadVersion (store : FileStore) (manifest : Manifest) (r : Registry) (version : String) :
    Attempt Registry := do
  let info := r.infos.getD version {}
  if info.isDeprecated then
    log .info "versions" s!"{version} is deprecated; not building it"
    return r
  match info.api?.filter (!·.isEmpty) with
  | none => throw (.config (.noDescription version))
  | some path =>
    let config ← Attempt.ofExcept ((loadConfig store manifest info).mapError .config)
    let api ← loadApi store (manifest.resolve path) config
    let (result, r) ← (r.register version api config none : Logged _)
    discard (Attempt.ofExcept result)
    return r

def load (store : FileStore) (manifest : Manifest) : Attempt Registry := do
  let r ← Attempt.ofExcept (create manifest.hubVersion manifest.versions manifest.group?)
  r.versions.foldlM (loadVersion store manifest) r

end ResourceVersions.Registry
