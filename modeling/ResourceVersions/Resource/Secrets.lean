import ResourceVersions.Resource.Build

/-!
# Secret members

A nested field that is configured as secret changes the type of a member of the structure that
it belongs to. The structure is the shape of the parent field, or of its elements.
-/
namespace ResourceVersions.Resource

/-- The name and the form of a shape, or of its elements if it is a list or map. -/
def ownerShape (api : Api) (name : String) : Except SchemaError (String × Form) := do
  let form := (← api.shape name).form
  match form.element? with
  | none => return (name, form)
  | some ref => return (ref.target, (← api.shape ref.target).form)

/-- The structure and the member that a secret path is about. -/
def secretMember (api : Api) (r : Resource) (path parentPath : String) :
    Except SchemaError (String × String) := do
  match r.fields.get? parentPath with
  | none => throw (.secretWithoutParent r.names.camel path parentPath)
  | some parent =>
    match parent.shape? with
    | none => throw (.secretUnderShapeless r.names.camel path parentPath)
    | some shape =>
      match ← ownerShape api shape with
      | (owner, .struct members) =>
        let rest := path.toList.drop parentPath.length
        let member := String.ofList (rest.dropWhile (· == '.'))
        if members.contains member then return (owner, member)
        throw (.secretNotMember r.names.camel path owner member)
      | _ => throw (.secretUnderPlain r.names.camel path parentPath)

/-- The structures and members that the secret fields of a resource are about. -/
def secretMembers (api : Api) (r : Resource) : Except SchemaError (List (String × String)) :=
  let secrets := r.settings.fields.sorted.filter fun e => e.2.isSecret
  let nested := secrets.map (fun e => (e.1, FieldPath.parent e.1))
  (nested.filter fun e => !e.2.isEmpty).mapM fun (path, parent) => secretMember api r path parent

/-- Adds a member to the secret members of a structure. -/
def addSecret (secrets : Table (List String)) (entry : String × String) : Table (List String) :=
  let known := secrets.getD entry.1 []
  if known.contains entry.2 then secrets else secrets.insert entry.1 (known ++ [entry.2])

/-- The secret members by structure, and the resources whose secrets lead nowhere. -/
def resolveSecrets (api : Api) (resources : List Resource) (mode : OnFailure) :
    Attempt (Table (List String) × List Failure) :=
  resources.foldlM (fun (secrets, failures) r => do
    match ← mode.guard r.names.camel id (Attempt.schema (r.secretMembers api)) with
    | .ok found => return (found.foldl addSecret secrets, failures)
    | .error failure => return (secrets, failures ++ [failure])) (∅, [])

end ResourceVersions.Resource
