import ResourceVersions.Api.Basic
import ResourceVersions.Log
import ResourceVersions.Text.Split

/-!
# Ignored shapes

Ignoring a shape ignores every list of it and every map with it as the value, and so on. What
is ignored leaves the API together with the members, inputs and outputs that refer to it.
Single members are removed by their paths before that.
-/
namespace ResourceVersions.Api

/-- A collection that is not ignored although its elements are. -/
def nextIgnored? (shapes : Table Shape) (ignored : List String) : Option (String × Shape) :=
  shapes.entries.find? fun (name, s) =>
    !ignored.contains name && s.form.element?.any fun ref => ignored.contains ref.target

theorem nextIgnored?_get {shapes : Table Shape} {ignored : List String} {name : String}
    {s : Shape} (h : nextIgnored? shapes ignored = some (name, s)) :
    name ∈ shapes.keys ∧ name ∉ ignored := by
  have hp := List.find?_some h
  have hm := List.mem_of_find?_eq_some h
  refine ⟨List.mem_map.mpr ⟨_, hm, rfl⟩, ?_⟩
  simp only [Bool.and_eq_true, Bool.not_eq_true'] at hp
  intro hi
  have : ignored.contains name = true := by simpa using hi
  rw [this] at hp
  exact absurd hp.1 (by simp)

theorem unseen_cons_lt_of_mem {shapes : Table Shape} {name : String} {seen : List String}
    (hm : name ∈ shapes.keys) (hn : name ∉ seen) :
    (shapes.unseen (name :: seen)).length < (shapes.unseen seen).length := by
  rw [Table.unseen_cons, List.length_filter_lt_length_iff_exists]
  exact ⟨name, by simp [Table.unseen, hm, hn], by simp⟩

/-- The ignored names with the collections of them, the collections of these, and so on. -/
def closeIgnored (shapes : Table Shape) (ignored : List String) : List String :=
  match _h : nextIgnored? shapes ignored with
  | none => ignored
  | some (name, _) => closeIgnored shapes (name :: ignored)
termination_by (shapes.unseen ignored).length
decreasing_by
  have := nextIgnored?_get _h
  exact unseen_cons_lt_of_mem this.1 this.2

/-- A structure without the members that fail a test. -/
def Form.filterMembers (keep : String → ShapeRef → Bool) : Form → Form
  | .struct ms => .struct (ms.filter keep)
  | form => form

/-- Drops the ignored shapes and every reference to them that can go without its shape. -/
def dropIgnored (api : Api) (ignored : List String) : Api :=
  let keepRef := fun (ref : ShapeRef) => !ignored.contains ref.target
  { api with
    shapes := (api.shapes.filter fun name _ => !ignored.contains name).map fun _ s =>
      { s with form := Form.filterMembers (fun _ ref => keepRef ref) s.form }
    operations := api.operations.map fun _ op =>
      { op with input? := op.input?.filter keepRef, output? := op.output?.filter keepRef } }

def ignoreShapes (api : Api) (names : List String) : Api :=
  if names.isEmpty then api else api.dropIgnored (closeIgnored api.shapes names)

/-- The shape and the member that a path names; the member is empty where there is none. -/
def memberPath (path : String) : String × String :=
  match Text.cut? '.' path.toList with
  | some (shape, member) => (String.ofList shape, String.ofList member)
  | none => (path, "")

/-- Removes the member at a path, if the path names a shape and a member. -/
def dropMember? (api : Api) (path : String) : Option Api :=
  let (name, member) := memberPath path
  match api.shape? name with
  | none => none
  | some s =>
    if member.isEmpty then none
    else
      some { api with
        shapes := api.shapes.insert name
          { s with form := Form.filterMembers (fun m _ => m != member) s.form } }

/-- Removes the members at the paths in turn; a path that names no member is logged. -/
def dropMembers : (paths : List String) → Api → Logged Api
  | [], api => pure api
  | path :: rest, api =>
    match api.dropMember? path with
    | some api => dropMembers rest api
    | none => do
      log .warning "shapes" s!"Ignored field path {path} does not name a shape member"
      dropMembers rest api

end ResourceVersions.Api
