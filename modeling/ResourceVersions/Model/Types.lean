import ResourceVersions.Hint
import ResourceVersions.Model.Reach

/-!
# Generated types

A version has a class for every structure that its resources lead to, payloads and exceptions
apart, and one for every enumeration of the API. A class that would take the name of something
else in the module gets a suffix.
-/
namespace ResourceVersions

/-- Names that the generated module of types uses itself. -/
def moduleNames : List String :=
  ["Any", "Dict", "List", "Optional", "ObjectMeta", "ResourceBase", "ResourceMetadata",
   Hint.secretClass, "dataclass", "datetime", "field"]

/-- What a class name gets that is taken. -/
def clashSuffix : String := "_SDK"

structure AttrDef where
  names : Names
  ref : ShapeRef
  isSecret : Bool
deriving DecidableEq, Repr

/-- A class for a structure. `names.given` is the structure and `names.camel` the class. -/
structure TypeDef where
  names : Names
  suffixed : Bool
  documentation : String
  attrs : List AttrDef
deriving DecidableEq, Repr

namespace TypeDef

def shape (d : TypeDef) : String := d.names.given
def className (d : TypeDef) : String := d.names.camel

end TypeDef

structure EnumValue where
  value : String
  clean : String
deriving DecidableEq, Repr

/-- A class for an enumeration. `names.given` is the shape and `names.camel` the class. -/
structure EnumDef where
  names : Names
  suffixed : Bool
  values : List EnumValue
deriving DecidableEq, Repr

namespace EnumDef

def shape (d : EnumDef) : String := d.names.given
def className (d : EnumDef) : String := d.names.camel

end EnumDef

namespace Types

/-- The names of the classes of a resource. -/
def resourceClasses (r : Resource) : List String :=
  [r.names.camel ++ "Spec", r.names.camel ++ "Status", r.names.camel]

/-- The names that no type may take. -/
def reserved (resources : List Resource) : List String :=
  moduleNames ++ resources.flatMap resourceClasses

/-- The names of a class and whether it got the suffix. -/
def classNames (taken : List String) (shape : String) : Except Error (Names × Bool) := do
  let names ← Names.of shape
  if taken.contains names.camel then
    return ({ names with camel := names.camel ++ clashSuffix }, true)
  return (names, false)

/-- The attributes of a structure, members in code-point order. -/
def attrsOf (members : Table ShapeRef) (secrets : List String) : Except Error (List AttrDef) :=
  members.sorted.mapM fun (member, ref) => do
    return { names := ← Names.of member, ref, isSecret := secrets.contains member }

/-- Adds the class of a structure; two structures may not share one. -/
def addTypeDef (taken : List String) (secrets : Table (List String)) (defs : List TypeDef)
    (entry : String × Shape) : Except Error (List TypeDef) := do
  let (name, shape) := entry
  let (names, suffixed) ← classNames taken name
  match defs.find? (fun d => d.className == names.camel) with
  | some d => throw (.schema (.classClash d.shape name names.camel))
  | none =>
    let attrs ← attrsOf shape.form.members (secrets.getD name [])
    return defs ++ [{ names, suffixed, documentation := shape.documentation, attrs }]

/-- The classes for the structures, in code-point order of the class names. -/
def typeDefs (api : Api) (resources : List Resource) (secrets : Table (List String)) :
    Except Error (List TypeDef) := do
  let structures ← (api.reachableStructures (Resource.fieldShapes resources)).mapError
    Error.schema
  let needed := structures.sorted.filter fun e =>
    !(api.payloads.contains e.1 || e.2.isException)
  let defs ← needed.foldlM (addTypeDef (reserved resources) secrets) []
  return defs.mergeSort fun a b => decide (a.className ≤ b.className)

/-- Adds a value of an enumeration; two values may not share an identifier. -/
def addEnumValue (shape : String) (values : List EnumValue) (value : String) :
    Except SchemaError (List EnumValue) :=
  let clean := Name.sanitize value
  match values.find? (fun v => v.clean == clean) with
  | some v => .error (.enumClash shape v.value value clean)
  | none => .ok (values ++ [⟨value, clean⟩])

def enumDef (taken : List String) (entry : String × Shape) : Except Error EnumDef := do
  let (names, suffixed) ← classNames taken entry.1
  let values ← (entry.2.enum.foldlM (addEnumValue entry.1) []).mapError Error.schema
  return { names, suffixed, values }

/-- The classes for all enumerations of an API, in code-point order of the class names. -/
def enumDefs (api : Api) (resources : List Resource) : Except Error (List EnumDef) := do
  let enums := api.shapes.sorted.filter fun e => e.2.isEnum
  let defs ← enums.mapM (enumDef (reserved resources))
  return defs.mergeSort fun a b => decide (a.className ≤ b.className)

/-- The classes that got the suffix by their shapes. -/
def typeRenames (defs : List TypeDef) : Table String :=
  .ofList ((defs.filter TypeDef.suffixed).map fun d => (d.shape, d.className))

def enumRenames (defs : List EnumDef) : Table String :=
  .ofList ((defs.filter EnumDef.suffixed).map fun d => (d.shape, d.className))

end Types

end ResourceVersions
