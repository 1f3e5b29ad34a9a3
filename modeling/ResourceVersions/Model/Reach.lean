import ResourceVersions.Resource.Basic

/-!
# Reachable shapes

The shapes that the fields of some resources lead to through members, elements, keys and
values. Lists and maps are passed through to what they hold. The shape found last is opened
first, and a structure is opened once.
-/
namespace ResourceVersions

/-- The targets of all references of a form, the last one first. -/
def Form.targets (form : Form) : List String := form.refs.reverse.map fun e => e.2.target

namespace Api

/-- What is behind the lists and maps that start at a name, values before keys, given the lists
and maps passed before. One that comes back to itself holds nothing there. -/
def endsFrom (api : Api) (passed : List String) (name : String) : List String :=
  match _h : api.shapes.get? name with
  | none => [name]
  | some shape =>
    if shape.form.element?.isNone then [name]
    else if _hn : name ∈ passed then []
    else shape.form.targets.flatMap fun target => endsFrom api (name :: passed) target
termination_by (api.shapes.unseen passed).length
decreasing_by exact Table.unseen_cons_lt _h _hn

/-- What is behind any lists and maps. -/
def ends (api : Api) (name : String) : List String := api.endsFrom [] name

/-- The structures that can be reached from the shapes to be visited, which are no lists or maps,
given those visited before. -/
def reachFrom (api : Api) (seen : List String) : List String → Except SchemaError (List String)
  | [] => .ok seen
  | name :: rest =>
    match _h : api.shapes.get? name with
    | none => .error (.undefinedShape name)
    | some shape =>
      if !shape.form.isStruct then reachFrom api seen rest
      else if _hn : name ∈ seen then reachFrom api seen rest
      else reachFrom api (name :: seen) (shape.form.targets.flatMap api.ends ++ rest)
termination_by todo => ((api.shapes.unseen seen).length, todo.length)
decreasing_by
  · exact Prod.Lex.right _ (by simp)
  · exact Prod.Lex.right _ (by simp)
  · exact Prod.Lex.left _ _ (Table.unseen_cons_lt _h _hn)

/-- The structures that can be reached from some shapes. -/
def reachableStructures (api : Api) (names : List String) :
    Except SchemaError (Table Shape) := do
  let reached ← api.reachFrom [] (names.flatMap api.ends)
  return api.shapes.filter fun name s => s.form.isStruct && reached.contains name

end Api

/-- The shapes of the top-level fields of some resources, the last one first. -/
def Resource.fieldShapes (resources : List Resource) : List String :=
  let fields := resources.flatMap fun r => (r.spec.sorted ++ r.status.sorted).map Prod.snd
  (fields.filterMap Field.shape?).reverse

end ResourceVersions
