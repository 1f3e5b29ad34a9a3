import ResourceVersions.Api.Ignore
import ResourceVersions.Json.Ordered
import ResourceVersions.Json.Shown

/-!
# API descriptions

An API description is a document with metadata, shapes and operations. Shapes are read before
operations, both in the order of the document, and the first fault is reported.
-/
namespace ResourceVersions.Api

/-- The reference in an entry; null and absence mean that there is none. A target that is not a
text is no shape. -/
def readRef? (place : String) : Option Json → Except SchemaError (Option ShapeRef)
  | none => .ok none
  | some .null => .ok none
  | some d =>
    match d.field? "shape" with
    | some target =>
      .ok (some ⟨target.str?.getD target.ordered.shown, d.strD "documentation" ""⟩)
    | none => .error (.noShapeName place)

/-- The members of a structure; one without a reference does not count. -/
def readMembers (shape : String) :
    List (String × Json) → Except SchemaError (List (String × ShapeRef))
  | [] => .ok []
  | (member, d) :: rest => do
    let ref? ← readRef? s!"Member {member} of {shape}" (some d)
    let others ← readMembers shape rest
    return (ref?.toList.map fun ref => (member, ref)) ++ others

def readForm (name : String) (d : Json) : Except SchemaError Form :=
  let type := (d.field? "type").getD .null
  match type with
  | .str "structure" => do
    let members ← readMembers name (((d.field? "members").map Json.fields).getD [])
    return .struct (Table.ofList members)
  | .str "list" => do
    match ← readRef? s!"List shape {name}" (d.field? "member") with
    | some element => return .list element
    | none => .error (.noElement name)
  | .str "map" => do
    let key? ← readRef? s!"Map shape {name} key" (d.field? "key")
    let value? ← readRef? s!"Map shape {name} value" (d.field? "value")
    match key?, value? with
    | some key, some value => return .map key value
    | _, _ => .error (.incompleteMap name)
  | .str text =>
    match Scalar.ofText? text with
    | some t => .ok (.scalar t)
    | none => .error (.unknownType name type.shown)
  | _ => .error (.unknownType name type.shown)

def readShape (name : String) (d : Json) : Except SchemaError Shape := do
  let form ← readForm name d
  return {
    form
    enum := d.strList "enum"
    isException := (d.field? "exception").any Json.isSet
    documentation := d.strD "documentation" "" }

def readOperation (name : String) (d : Json) : Except SchemaError Operation := do
  let input? ← readRef? s!"Input of {name}" (d.field? "input")
  let output? ← readRef? s!"Output of {name}" (d.field? "output")
  return ⟨name, input?, output?⟩

/-- Reads the entries of a section in turn. -/
def readEntries {α : Type} (read : String → Json → Except SchemaError α) :
    List (String × Json) → Except SchemaError (List (String × α))
  | [] => .ok []
  | (name, d) :: rest => do
    let entry ← read name d
    let others ← readEntries read rest
    return (name, entry) :: others

/-- The API of a description, before anything is ignored. -/
def read (doc : Json) : Except SchemaError Api :=
  match doc.field? "shapes" with
  | some (.obj shapeDocs) => do
    let metadata := (doc.field? "metadata").getD (.obj [])
    let shapes ← readEntries readShape shapeDocs
    let operations ← readEntries readOperation
      (((doc.field? "operations").map Json.fields).getD [])
    return {
      serviceId := metadata.strD "serviceId" ""
      apiVersion := metadata.strD "apiVersion" ""
      shapes := Table.ofList shapes
      operations := Table.ofList operations }
  | _ => .error .noShapes

/-- The API of a description without the ignored members and shapes. -/
def ofDocument (doc : Json) (ignoredShapes ignoredPaths : List String) : Attempt Api := do
  let api ← Attempt.schema (read doc)
  let api ← (dropMembers ignoredPaths api : Logged Api)
  return api.ignoreShapes ignoredShapes

end ResourceVersions.Api
