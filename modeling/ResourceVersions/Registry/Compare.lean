import ResourceVersions.Delta.Diff
import ResourceVersions.Registry.Basic

/-!
# Comparing registered versions

Two versions are compared resource by resource, paired by name. Resources that failed in
either version are left out of the pairs.
-/
namespace ResourceVersions

/-- A resource in two versions. -/
structure ResourcePair where
  name : String
  src : Resource
  dst : Resource

namespace Registry

/-- The resources of a model by name, without some. -/
def resourcesWithout (m : VersionModel) (failed : List String) : Table Resource :=
  .ofList ((m.resources.filter fun r => !failed.contains r.names.camel).map fun r =>
    (r.names.camel, r))

/-- The resources of two models by name. -/
def pairModels (src dst : VersionModel) : Except SchemaError (List ResourcePair) :=
  let failed := (src.failures ++ dst.failures).map Failure.name
  let srcs := resourcesWithout src failed
  let dsts := resourcesWithout dst failed
  let onlySrc := srcs.sortedKeys.filter (!dsts.contains ·)
  let onlyDst := dsts.sortedKeys.filter (!srcs.contains ·)
  if onlySrc.isEmpty && onlyDst.isEmpty then
    .ok (srcs.sorted.filterMap fun (name, s) => (dsts.get? name).map fun d => ⟨name, s, d⟩)
  else .error (.differentResources src.version dst.version onlySrc onlyDst)

/-- The two models of different versions. -/
def twoModels (r : Registry) (src dst : String) :
    Except Error (VersionModel × VersionModel) := do
  if src == dst then throw (.config (.sameVersion src))
  let srcModel ← (r.model src).mapError Error.version
  let dstModel ← (r.model dst).mapError Error.version
  return (srcModel, dstModel)

def pairs (r : Registry) (src dst : String) : Except Error (List ResourcePair) := do
  let (srcModel, dstModel) ← r.twoModels src dst
  (pairModels srcModel dstModel).mapError .schema

/-- The deltas of all resources, the first version in the place of the spoke. -/
def compare (r : Registry) (src dst : String) : Attempt (List (String × ResourceDelta)) := do
  let (srcModel, dstModel) ← Attempt.ofExcept (r.twoModels src dst)
  let pairs ← Attempt.schema (pairModels srcModel dstModel)
  pairs.mapM fun p => do
    let delta ← ResourceDelta.compute ⟨srcModel.api, p.src⟩ ⟨dstModel.api, p.dst⟩
    return (p.name, delta)

end Registry

end ResourceVersions
