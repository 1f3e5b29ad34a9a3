import ResourceVersions.Log
import ResourceVersions.Name.FieldPath
import ResourceVersions.Resource.Basic

/-!
# Top-level fields

The members of the create input become Spec fields and those of the create output that are not
there yet become Status fields. Configured fields follow: attributes, which have no shape, and
fields whose shape is found elsewhere in the API.
-/
namespace ResourceVersions.Resource

/-- The member that holds the attributes map of a resource. -/
def attributesMember : String := "Attributes"

/-- The members of a payload as they become fields; the attributes map is taken apart. -/
def payloadMembers (r : Resource) (members : Table ShapeRef) : List (String × ShapeRef) :=
  members.sorted.filter fun e => !(r.settings.unpacksAttributes && e.1 == attributesMember)

/-- The members of the create output, or of the structure that is its only member. -/
def outputMembers? (api : Api) (r : Resource) : Except SchemaError (Option (Table ShapeRef)) :=
  match r.ops.create.output? with
  | none => .ok none
  | some ref => do
    let members := (← api.shape ref.target).form.members
    match members.values with
    | [only] =>
      match (← api.shape only.target).form with
      | .struct inner => return some inner
      | _ => return some members
    | _ => return some members

/-- Whether the create output has a member of the same capitalised name as a path. -/
def isOutputMember (api : Api) (r : Resource) (path : String) : Except Error Bool := do
  match ← (r.outputMembers? api).mapError Error.schema with
  | none => return false
  | some members =>
    let camel := (← Names.of path).camel
    members.keys.anyM fun m => return (← Names.of m).camel == camel

def addInputMember (api : Api) (r : Resource) (member : String × ShapeRef) :
    Except Error Resource := do
  (api.requireDefined member.2).mapError Error.schema
  let names ← Names.of (r.inputRename r.ops.create.name member.1)
  return r.addSpec names (some member.2)

/-- Adds a field for every configured attribute. -/
def unpackAttributes (r : Resource) : Except Error Resource :=
  (r.settings.fields.sorted.filter fun e => e.2.isAttribute).foldlM (fun r (path, fc) => do
    let names ← Names.of path
    return if fc.isReadOnly then r.addStatus names none else r.addSpec names none) r

def addInputMembers (api : Api) (r : Resource) : Except Error Resource :=
  match r.ops.create.input? with
  | none => .ok r
  | some ref => do
    let shape ← (api.shape ref.target).mapError Error.schema
    let r ← (r.payloadMembers shape.form.members).foldlM (addInputMember api) r
    if r.settings.unpacksAttributes then r.unpackAttributes else return r

def warn (text : String) : Logged Unit := log .warning "builder" text

/-- Warns that a configured field does not lead to a field. -/
def warnShapeless (r : Resource) (path : String) : Logged Unit :=
  warn s!"{r.names.camel}: field {path} has no shape and isn't an attribute; skipped"

def addConfiguredSpec (api : Api) (r : Resource) (entry : String × FieldConfig) :
    Attempt Resource := do
  let (path, fc) := entry
  if FieldPath.isNested path || fc.isReadOnly || r.spec.contains path then return r
  if fc.isAttribute then
    if !r.settings.unpacksAttributes then
      warn (s!"{r.names.camel}: attribute field {path} skipped; " ++
        "the resource doesn't unpack its attributes")
    return r
  match fc.source? with
  | none =>
    if !(← Attempt.ofExcept (r.isOutputMember api path)) then r.warnShapeless path
    return r
  | some source =>
    match api.inputRef? source.operation source.path with
    | none => throw (.schema (.noInputPath r.names.camel source.path source.operation path))
    | some ref =>
      Attempt.schema (api.requireDefined ref)
      return r.addSpec (← Attempt.ofExcept (Names.of path)) (some ref)

def addOutputMember (api : Api) (r : Resource) (member : String × ShapeRef) :
    Except Error Resource := do
  let (name, ref) := member
  if r.isIdentifier name then return { r with identifier? := some name }
  let names ← Names.of (r.inputRename r.ops.create.name name)
  if r.spec.contains names.camel || r.spec.contains name || r.status.contains names.camel then
    return r
  (api.requireDefined ref).mapError Error.schema
  return r.addStatus names (some ref)

def addOutputMembers (api : Api) (r : Resource) : Except Error Resource := do
  match ← (r.outputMembers? api).mapError Error.schema with
  | none => return r
  | some members => (r.payloadMembers members).foldlM (addOutputMember api) r

def addConfiguredStatus (api : Api) (r : Resource) (entry : String × FieldConfig) :
    Attempt Resource := do
  let (path, fc) := entry
  if FieldPath.isNested path || !fc.isReadOnly || fc.isAttribute || r.status.contains path then
    return r
  match fc.source? with
  | none =>
    r.warnShapeless path
    return r
  | some source =>
    match api.outputRef? source.operation source.path with
    | none => throw (.schema (.noOutputPath r.names.camel source.path source.operation path))
    | some ref =>
      Attempt.schema (api.requireDefined ref)
      return r.addStatus (← Attempt.ofExcept (Names.of path)) (some ref)

/-- Adds the top-level fields of the Spec and then those of the Status. -/
def addTopFields (api : Api) (r : Resource) : Attempt Resource := do
  let r ← Attempt.ofExcept (r.addInputMembers api)
  let r ← r.settings.fields.sorted.foldlM (addConfiguredSpec api) r
  let r ← Attempt.ofExcept (r.addOutputMembers api)
  r.settings.fields.sorted.foldlM (addConfiguredStatus api) r

end ResourceVersions.Resource
