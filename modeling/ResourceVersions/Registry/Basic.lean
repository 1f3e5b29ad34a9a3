import ResourceVersions.Manifest
import ResourceVersions.Model.Build
import ResourceVersions.Version

/-!
# The registry of versions

The registry knows the hub, the manifest entries of all versions and the models of those that
have been registered. The deprecation policy holds in every registry: the hub is not
deprecated, and the deprecated spokes of a track are its oldest ones.
-/
namespace ResourceVersions

structure Registry where
  hubVersion : String
  group? : Option String
  infos : Table VersionInfo
  models : Table VersionModel

namespace Registry

/-- The versions that have an entry, beside the texts that name them. -/
def parsed (infos : Table VersionInfo) : List (Version × String) :=
  infos.keys.filterMap fun text => (Version.parse text).toOption.map fun v => (v, text)

/-- All versions, oldest first. -/
def versions (r : Registry) : List String :=
  ((parsed r.infos).mergeSort fun a b => a.1.le b.1).map Prod.snd

def spokeVersions (r : Registry) : List String := r.versions.filter (· != r.hubVersion)

def isDeprecated (infos : Table VersionInfo) (version : String) : Bool :=
  (infos.get? version).any VersionInfo.isDeprecated

def deprecatedVersions (r : Registry) : List String := r.versions.filter (isDeprecated r.infos)

def usableVersions (r : Registry) : List String := r.versions.filter (!isDeprecated r.infos ·)

def sameTrack (a b : Version) : Bool := a.major == b.major && a.track == b.track

/-- Version order, and the order of the texts for equal versions. -/
def auditBefore (a b : Version × String) : Bool :=
  a.1.le b.1 && (a.1 != b.1 || decide (a.2 ≤ b.2))

/-- Fails at the first deprecated version that has an older available one in its track, given
the oldest available version of the track so far. -/
def auditFrom (infos : Table VersionInfo) (available? : Option (Version × String)) :
    List (Version × String) → Except PolicyError Unit
  | [] => .ok ()
  | (v, text) :: rest =>
    let available? := available?.filter fun older => sameTrack older.1 v
    if isDeprecated infos text then
      match available? with
      | some older => .error (.outOfOrder text older.2)
      | none => auditFrom infos none rest
    else auditFrom infos (available?.or (some (v, text))) rest

/-- Checks the deprecation policy. -/
def audit (hubVersion : String) (infos : Table VersionInfo) : Except PolicyError Unit :=
  if isDeprecated infos hubVersion then .error (.hubDeprecated hubVersion)
  else
    let spokes := (parsed infos).filter fun e => e.2 != hubVersion
    auditFrom infos none (spokes.mergeSort auditBefore)

/-- A registry without models. The hub has to be listed and all names have to be versions. -/
def create (hubVersion : String) (infos : Table VersionInfo) (group? : Option String) :
    Except Error Registry := do
  if !infos.contains hubVersion then throw (.config (.hubNotListed hubVersion))
  let _ ← Version.parseAll infos.keys
  (audit hubVersion infos).mapError Error.policy
  return { hubVersion, group?, infos, models := ∅ }

/-- Makes sure that a version has an entry: the given one if the policy allows it, or else the
one that is there. -/
def withEntry (r : Registry) (version : String) (info? : Option VersionInfo) :
    Except Error Registry := do
  match info? with
  | none =>
    if r.infos.contains version then return r
    throw (.config (.versionNotListed version))
  | some info =>
    let _ ← Version.parse version
    let infos := r.infos.insert version info
    (audit r.hubVersion infos).mapError Error.policy
    return { r with infos }

/-- Builds the model of a version and keeps it. Resources that fail are in the model's
failures. -/
def register (r : Registry) (version : String) (api : Api) (config : Config)
    (info? : Option VersionInfo) : Logged (Except Error VersionModel × Registry) := do
  match r.withEntry version info? with
  | .error e => return (.error e, r)
  | .ok r =>
    match ← (VersionModel.build version api config r.group? .collect).outcome with
    | .error e => return (.error e, r)
    | .ok m => return (.ok m, { r with models := r.models.insert version m })

def isRegistered (r : Registry) (version : String) : Bool := r.models.contains version

/-- The model of a version that is known, not deprecated and registered. -/
def model (r : Registry) (version : String) : Except VersionError VersionModel :=
  match r.infos.get? version with
  | none => .error (.unknown version)
  | some info =>
    if info.isDeprecated then .error (.deprecated version)
    else
      match r.models.get? version with
      | none => .error (.unregistered version)
      | some m => .ok m

/-- Fails unless every version has a model that may be used. -/
def verify (r : Registry) (versions : List String) : Except VersionError Unit :=
  versions.forM fun v => discard (r.model v)

end Registry

end ResourceVersions
