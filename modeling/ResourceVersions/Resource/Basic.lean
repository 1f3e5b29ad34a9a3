import ResourceVersions.Api.Kind
import ResourceVersions.Config.Basic
import ResourceVersions.Name.Basic

/-!
# Resources

A resource is anchored on its create operation. Its Spec holds what a user asks for and its
Status what has been observed. Top-level fields are keyed by their capitalised names; `fields`
holds them and everything nested in them by path.
-/
namespace ResourceVersions

/-- The operations on one resource. -/
structure ResourceOps where
  create : Operation
  readOne? : Option Operation
  readMany? : Option Operation
  update? : Option Operation
  delete? : Option Operation
  getAttributes? : Option Operation
  setAttributes? : Option Operation
deriving DecidableEq, Repr

namespace ResourceOps

/-- All operations of an API on a resource that has a create operation. -/
def ofApi (api : Api) (ignored : List String) (resource : String) (create : Operation) :
    ResourceOps :=
  let find := fun kind => (api.operationsOf ignored kind).get? resource
  { create
    readOne? := find .readOne
    readMany? := find .readMany
    update? := find .update
    delete? := find .delete
    getAttributes? := find .getAttributes
    setAttributes? := find .setAttributes }

def toList (ops : ResourceOps) : List Operation :=
  ops.create :: [ops.readOne?, ops.readMany?, ops.update?, ops.delete?, ops.getAttributes?,
    ops.setAttributes?].filterMap id

end ResourceOps

/-- A field of a resource. One that comes from an attributes map has no shape. -/
structure Field where
  path : String
  names : Names
  ref? : Option ShapeRef
  config? : Option FieldConfig
deriving DecidableEq, Repr

namespace Field

/-- The attribute of the generated class that holds the field. -/
def attrName (f : Field) : String := f.names.camelLower

/-- The name of the shape of the values. -/
def shape? (f : Field) : Option String := f.ref?.map ShapeRef.target

def isSecret (f : Field) : Bool := f.config?.any FieldConfig.isSecret
def isReadOnly (f : Field) : Bool := f.config?.any FieldConfig.isReadOnly
def isAttribute (f : Field) : Bool := f.config?.any FieldConfig.isAttribute

end Field

structure Resource where
  names : Names
  ops : ResourceOps
  settings : ResourceConfig
  spec : Table Field := ∅
  status : Table Field := ∅
  fields : Table Field := ∅
  identifier? : Option String := none

namespace Resource

/-- How a resource is referred to in reports. -/
def label (r : Resource) : String := s!"Resource({r.names.camel})"

/-- The name under which a member of the input of an operation appears. -/
def inputRename (r : Resource) (operation member : String) : String :=
  (r.settings.renamesOf operation).getD member member

def newField (r : Resource) (path : String) (names : Names) (ref? : Option ShapeRef) : Field :=
  { path, names, ref?, config? := r.settings.fields.get? path }

def addSpec (r : Resource) (names : Names) (ref? : Option ShapeRef) : Resource :=
  let f := r.newField names.camel names ref?
  { r with fields := r.fields.insert f.path f, spec := r.spec.insert f.path f }

def addStatus (r : Resource) (names : Names) (ref? : Option ShapeRef) : Resource :=
  let f := r.newField names.camel names ref?
  { r with fields := r.fields.insert f.path f, status := r.status.insert f.path f }

def addNested (r : Resource) (path : String) (names : Names) (ref : ShapeRef) : Resource :=
  { r with fields := r.fields.insert path (r.newField path names (some ref)) }

/-- Whether an output member identifies the resource: the configured one, or else one that is
named like an ARN of the resource. -/
def isIdentifier (r : Resource) (member : String) : Bool :=
  let usual := ["Arn", "ARN", r.names.camel ++ "Arn", r.names.camel ++ "ARN"]
  match r.settings.primaryIdentifier? with
  | none => usual.contains member
  | some id => if id.isEmpty then usual.contains member else member == id

/-- Whether any field at any depth has a shape. -/
def hasShape (r : Resource) (shape : String) : Bool :=
  r.fields.values.any fun f => f.shape? == some shape

/-- The paths of the secret fields anywhere below a path, in code-point order. -/
def secretPathsUnder (r : Resource) (path : String) : List String :=
  let secrets := r.fields.sorted.filter fun e => e.2.isSecret
  (secrets.map Prod.fst).filter fun p => (path ++ ".").toList.isPrefixOf p.toList

end Resource

end ResourceVersions
