import ResourceVersions.Api.Basic

/-!
# Through lists and maps

The chain that starts at a shape and leads from each list to its element and from each map to
its value. It ends at a scalar or a structure, at an undefined name, or comes back to a list or
map that it has passed.
-/
namespace ResourceVersions.Api

/-- The end of the chain that starts at a name, given the lists and maps passed before. -/
def innermostFrom (api : Api) (seen : List String) (name : String) : Except SchemaError String :=
  match _h : api.shapes.get? name with
  | none => .error (.undefinedShape name)
  | some shape =>
    match shape.form.element? with
    | none => .ok name
    | some ref =>
      if _hn : name ∈ seen then .error (.selfContaining name)
      else innermostFrom api (name :: seen) ref.target
termination_by (api.shapes.unseen seen).length
decreasing_by exact Table.unseen_cons_lt _h _hn

/-- The name of the first shape behind any lists and maps. -/
def innermost (api : Api) (name : String) : Except SchemaError String :=
  api.innermostFrom [] name

/-- Whether a name leads to a list or map. -/
def isCollection (api : Api) (name : String) : Bool :=
  (api.shape? name).any fun s => s.form.element?.isSome

/-- Whether the chain ends at a scalar, given the lists and maps passed before. -/
def isPlainFrom (api : Api) (seen : List String) (name : String) : Bool :=
  match _h : api.shapes.get? name with
  | none => false
  | some shape =>
    if _hn : name ∈ seen then false
    else
      match shape.form with
      | .scalar _ => true
      | .struct _ => false
      | .list e => isPlainFrom api (name :: seen) e.target
      | .map _ v => isPlainFrom api (name :: seen) v.target
termination_by (api.shapes.unseen seen).length
decreasing_by all_goals exact Table.unseen_cons_lt _h _hn

/-- Whether a shape is a scalar, or a list or map of scalars at any depth. -/
def isPlain (api : Api) (name : String) : Bool := api.isPlainFrom [] name

end ResourceVersions.Api
