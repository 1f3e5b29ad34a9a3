import ResourceVersions.Error
import ResourceVersions.Table
import ResourceVersions.Text.Split

/-!
# The shapes of an API

An API is a table of named shapes and a table of operations whose inputs and outputs are
shapes. A shape refers to others by name, so the shapes are the nodes of a graph, which may
have cycles, and a name without an entry is an undefined shape.
-/
namespace ResourceVersions

inductive Scalar where
  | boolean
  | string
  | character
  | byte
  | short
  | integer
  | long
  | float
  | double
  | timestamp
deriving DecidableEq, Repr

namespace Scalar

def all : List Scalar :=
  [boolean, string, character, byte, short, integer, long, float, double, timestamp]

def text : Scalar → String
  | boolean => "boolean"
  | string => "string"
  | character => "character"
  | byte => "byte"
  | short => "short"
  | integer => "integer"
  | long => "long"
  | float => "float"
  | double => "double"
  | timestamp => "timestamp"

def ofText? (s : String) : Option Scalar := all.find? (fun t => t.text == s)

end Scalar

/-- A reference to a shape by its name. -/
structure ShapeRef where
  target : String
  documentation : String
deriving DecidableEq, Repr, Inhabited

/-- What values of a shape look like. -/
inductive Form where
  | scalar (type : Scalar)
  | struct (members : Table ShapeRef)
  | list (element : ShapeRef)
  | map (key value : ShapeRef)

namespace Form

def typeText : Form → String
  | scalar t => t.text
  | struct _ => "structure"
  | list _ => "list"
  | map _ _ => "map"

/-- The members of a structure; other forms have none. -/
def members : Form → Table ShapeRef
  | struct ms => ms
  | _ => ∅

def isStruct : Form → Bool
  | struct _ => true
  | _ => false

/-- What the elements of a list or the values of a map refer to. -/
def element? : Form → Option ShapeRef
  | list e => some e
  | map _ v => some v
  | _ => none

/-- Every reference with a label: the members in code-point order, the element of a list, the
key and the value of a map. -/
def refs : Form → List (String × ShapeRef)
  | scalar _ => []
  | struct ms => ms.sorted
  | list e => [("member", e)]
  | map k v => [("key", k), ("value", v)]

end Form

structure Shape where
  form : Form
  enum : List String
  isException : Bool
  documentation : String

def Shape.isEnum (s : Shape) : Bool := !s.enum.isEmpty

structure Operation where
  name : String
  input? : Option ShapeRef
  output? : Option ShapeRef
deriving DecidableEq, Repr, Inhabited

structure Api where
  serviceId : String
  apiVersion : String
  shapes : Table Shape
  operations : Table Operation

namespace Api

def shape? (api : Api) (name : String) : Option Shape := api.shapes.get? name

/-- The shape of a name that has to be defined. -/
def shape (api : Api) (name : String) : Except SchemaError Shape :=
  match api.shape? name with
  | some s => .ok s
  | none => .error (.undefinedShape name)

def isDefined (api : Api) (ref : ShapeRef) : Bool := api.shapes.contains ref.target

/-- Fails unless a reference leads to a shape. -/
def requireDefined (api : Api) (ref : ShapeRef) : Except SchemaError Unit :=
  if api.isDefined ref then .ok () else .error (.undefinedShape ref.target)

/-- Whether a shape is the output of an operation. -/
def usedAsOutput (api : Api) (name : String) : Bool :=
  api.operations.values.any fun op => op.output?.any (·.target == name)

/-- The names of all inputs and outputs, each once. -/
def payloads (api : Api) : List String :=
  (api.operations.values.flatMap fun op =>
    (op.input?.toList ++ op.output?.toList).map ShapeRef.target).eraseDups

/-- The reference at a path of member names that starts at a reference. -/
def refAt? (api : Api) : (parts : List String) → ShapeRef → Option ShapeRef
  | [], ref => some ref
  | part :: parts, ref =>
    match (api.shape? ref.target).map Shape.form with
    | some (.struct members) => (members.get? part).bind (refAt? api parts)
    | _ => none

/-- The reference at a path inside the input of an operation. -/
def inputRef? (api : Api) (operation path : String) : Option ShapeRef :=
  ((api.operations.get? operation).bind Operation.input?).bind
    (api.refAt? (Text.split '.' path))

/-- The reference at a path inside the output of an operation. -/
def outputRef? (api : Api) (operation path : String) : Option ShapeRef :=
  ((api.operations.get? operation).bind Operation.output?).bind
    (api.refAt? (Text.split '.' path))

end Api

end ResourceVersions
