import ResourceVersions.Model.Basic
import ResourceVersions.Resource.Secrets

/-!
# Building the model of a version

The resources come first, then their secret members, and the classes for what is left after
the failing resources have been taken out.
-/
namespace ResourceVersions.VersionModel

/-- Fails if an enumeration takes the class name of a structure. -/
def checkClassNames (typeDefs : List TypeDef) (enumDefs : List EnumDef) :
    Except SchemaError Unit :=
  enumDefs.forM fun e =>
    match typeDefs.find? (fun d => d.className == e.className) with
    | some d => .error (.classClash d.shape e.shape e.className)
    | none => .ok ()

def build (version : String) (api : Api) (config : Config) (group? : Option String)
    (mode : OnFailure) : Attempt VersionModel := do
  let (built, buildFailures) ← Resource.buildAll api config mode
  let (secretMembers, secretFailures) ← Resource.resolveSecrets api built mode
  let failures := buildFailures ++ secretFailures
  let failed := failures.map Failure.name
  let resources := built.filter fun r => !failed.contains r.names.camel
  let typeDefs ← Attempt.ofExcept (Types.typeDefs api resources secretMembers)
  let enumDefs ← Attempt.ofExcept (Types.enumDefs api resources)
  Attempt.schema (checkClassNames typeDefs enumDefs)
  log .info "builder" (s!"{version}: {resources.length} resource(s), " ++
    s!"{typeDefs.length} type def(s), {enumDefs.length} enum(s)")
  return { version, api, config, group?, resources, typeDefs, enumDefs, secretMembers, failures }

end ResourceVersions.VersionModel
