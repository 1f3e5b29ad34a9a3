import ResourceVersions.Resource.Nested

/-!
# Building resources

Every create operation that is not ignored gives a resource. A resource whose shapes do not
fit together can be left out and reported, so that the others are still built.
-/
namespace ResourceVersions

/-- What happens to a resource that cannot be built. -/
inductive OnFailure where
  | stop
  | collect
deriving DecidableEq, Repr

namespace OnFailure

variable {α : Type}

/-- Runs the work on one resource. A schema error is logged and becomes a failure of the
resource if failures are collected; every other error ends the run. -/
def guard (mode : OnFailure) (resource : String) (describe : String → String)
    (work : Attempt α) : Attempt (Except Failure α) := do
  try return .ok (← work)
  catch
    | .schema e =>
      match mode with
      | stop => throw (.schema e)
      | collect =>
        log .error "builder" (describe e.message)
        return .error ⟨resource, .schema e⟩
    | e => throw e

end OnFailure

namespace Resource

/-- The resource of a create operation, with all its fields. -/
def build (api : Api) (config : Config) (names : Names) (create : Operation) :
    Attempt Resource := do
  let r : Resource :=
    { names
      ops := .ofApi api config.ignore.operations names.given create
      settings := config.resource names.given }
  let r ← r.addTopFields api
  r.addNestedFields api

/-- The resources built so far by capitalised name, and the failures. -/
structure Progress where
  built : Table Resource := ∅
  failures : List Failure := []

/-- Builds the resource of a create operation unless there is one of its name. -/
def addResource (api : Api) (config : Config) (mode : OnFailure) (acc : Progress)
    (entry : String × Operation) : Attempt Progress := do
  let (resource, create) := entry
  if config.isIgnoredResource resource then return acc
  let names ← Attempt.ofExcept (Names.of resource)
  if acc.built.contains names.camel then return acc
  match ← mode.guard names.camel (fun text => s!"{names.camel}: {text}")
      (build api config names create) with
  | .ok r => return { acc with built := acc.built.insert names.camel r }
  | .error failure => return { acc with failures := acc.failures ++ [failure] }

/-- The resources in code-point order of their capitalised names, and the failures. -/
def buildAll (api : Api) (config : Config) (mode : OnFailure) :
    Attempt (List Resource × List Failure) := do
  let creates := (api.operationsOf config.ignore.operations .create).sorted
  let progress ← creates.foldlM (addResource api config mode) {}
  return (progress.built.sorted.map Prod.snd, progress.failures)

end Resource

end ResourceVersions
