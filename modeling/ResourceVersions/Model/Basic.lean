import ResourceVersions.Model.Types

/-!
# The model of one version

Everything that is generated for one API version: resources, classes and which members are
secret.
-/
namespace ResourceVersions

structure VersionModel where
  version : String
  api : Api
  config : Config
  group? : Option String
  resources : List Resource
  typeDefs : List TypeDef
  enumDefs : List EnumDef
  secretMembers : Table (List String)
  failures : List Failure

def Scalar.hint : Scalar → Hint
  | boolean => .bool
  | string | character => .str
  | byte | short | integer | long => .int
  | float | double => .float
  | timestamp => .datetime

namespace VersionModel

/-- The version as objects state it, behind the group if there is one. -/
def apiVersion (m : VersionModel) : String :=
  match m.group? with
  | none => m.version
  | some group => if group.isEmpty then m.version else s!"{group}/{m.version}"

def resource? (m : VersionModel) (name : String) : Option Resource :=
  m.resources.find? fun r => r.names.camel == name

def typeDef? (m : VersionModel) (shape : String) : Option TypeDef :=
  m.typeDefs.find? fun d => d.shape == shape

def isSecretMember (m : VersionModel) (shape member : String) : Bool :=
  (m.secretMembers.getD shape []).contains member

/-- The classes that got a suffix by their shapes. -/
def typeRenames (m : VersionModel) : Table String :=
  .ofList ((Types.typeRenames m.typeDefs).entries ++ (Types.enumRenames m.enumDefs).entries)

/-- The class of a structure. -/
def typeName (m : VersionModel) (shape : String) : Except SchemaError String :=
  match m.typeDef? shape with
  | some d => .ok d.className
  | none => .error (.noClass shape m.version)

/-- The type of the values of a shape, given the lists and maps around it. -/
def hintFrom (m : VersionModel) (seen : List String) (name : String) :
    Except SchemaError Hint := do
  match _h : m.api.shapes.get? name with
  | none => throw (.undefinedShape name)
  | some shape =>
    match shape.form with
    | .scalar t => return t.hint
    | .struct _ => return .named (← m.typeName name)
    | .list e =>
      if _hn : name ∈ seen then throw (.selfContaining name)
      else return .list (← hintFrom m (name :: seen) e.target)
    | .map k v =>
      if _hn : name ∈ seen then throw (.selfContaining name)
      else
        let key ← hintFrom m (name :: seen) k.target
        return .dict key (← hintFrom m (name :: seen) v.target)
termination_by (m.api.shapes.unseen seen).length
decreasing_by all_goals exact Table.unseen_cons_lt _h _hn

/-- The type of a value. Secret values are references, and values without a shape are texts. -/
def hint (m : VersionModel) (shape? : Option String) (isSecret : Bool) :
    Except SchemaError Hint :=
  if isSecret then .ok .secret
  else
    match shape? with
    | none => .ok .str
    | some shape => m.hintFrom [] shape

end VersionModel

end ResourceVersions
