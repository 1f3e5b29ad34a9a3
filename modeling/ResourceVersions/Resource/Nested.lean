import ResourceVersions.Api.Walk
import ResourceVersions.Resource.Fields

/-!
# Nested fields

Every member of the structure behind a field is a field of its own, and so on downwards. A
structure is not opened again inside itself, so that cyclic shapes give finitely many fields.
-/
namespace ResourceVersions.Resource

/-- A member somewhere below a top-level field. -/
structure NestedField where
  path : String
  names : Names
  ref : ShapeRef

/-- The fields below a path whose values have a shape, given the structures around it. A field
comes before the fields below it, members in code-point order. -/
def nestedFrom (api : Api) (active : List String) (path shape : String) :
    Except Error (List NestedField) := do
  let inner ← (api.innermost shape).mapError Error.schema
  match _h : api.shapes.get? inner with
  | some ⟨.struct members, _, _, _⟩ =>
    if _hn : inner ∈ active then return []
    else
      let fields ← members.sorted.mapM fun (member, ref) => do
        (api.requireDefined ref).mapError Error.schema
        let path := FieldPath.child path (api.isCollection shape) member
        let names ← Names.of member
        return ⟨path, names, ref⟩ :: (← nestedFrom api (inner :: active) path ref.target)
      return fields.flatten
  | _ => return []
termination_by (api.shapes.unseen active).length
decreasing_by exact Table.unseen_cons_lt _h _hn

/-- Everything below the top-level fields, the Spec before the Status. -/
def nestedFields (api : Api) (r : Resource) : Except Error (List NestedField) := do
  let tops := (r.spec.sorted ++ r.status.sorted).map Prod.snd
  let fields ← tops.mapM fun f =>
    match f.shape? with
    | none => return []
    | some shape => nestedFrom api [] f.path shape
  return fields.flatten

/-- Adds all nested fields and warns of settings for nested fields that do not exist. -/
def addNestedFields (api : Api) (r : Resource) : Attempt Resource := do
  let nested ← Attempt.ofExcept (r.nestedFields api)
  let r := nested.foldl (fun r f => r.addNested f.path f.names f.ref) r
  for path in r.settings.fields.sortedKeys do
    if FieldPath.isNested path && !r.fields.contains path then
      warn s!"{r.names.camel}: configured field {path} doesn't match any field"
  return r

end ResourceVersions.Resource
