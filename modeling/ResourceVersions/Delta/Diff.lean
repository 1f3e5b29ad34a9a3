import ResourceVersions.Api.Equality
import ResourceVersions.Delta.Basic
import ResourceVersions.Log
import ResourceVersions.Resource.Renames

/-!
# Comparing two versions

A spoke field is paired with the hub field of its name, or else with the one that a rename
names. Hub fields that no spoke field claims were added. Every field is in one delta.
-/
namespace ResourceVersions

/-- A resource and the API that its fields refer to. -/
structure ResourceSide where
  api : Api
  resource : Resource

namespace ResourceDelta

/-- Fails if a list of renames has a target twice, given the old names of the targets before. -/
def checkRenamesFrom (seen : Table String) : List (String × String) → Except RenameError Unit
  | [] => .ok ()
  | (old, new) :: rest =>
    match seen.get? new with
    | some first => .error (.sharedTarget first old new)
    | none => checkRenamesFrom (seen.insert new old) rest

/-- Fails unless different names have different new names. -/
def checkRenames (renames : Table String) : Except RenameError Unit :=
  checkRenamesFrom ∅ renames.sorted

/-- The hub field that belongs to a spoke field, with its name. -/
def partner? (renames : Table String) (spoke hub : Table Field) (name : String) :
    Except RenameError (Option (String × Field)) :=
  match hub.get? name with
  | some h => .ok (some (name, h))
  | none =>
    match renames.get? name with
    | none => .ok none
    | some new =>
      match hub.get? new with
      | none => .error (.missingTarget name new)
      | some h =>
        if spoke.contains new then .error (.occupiedTarget name new) else .ok (some (new, h))

/-- The delta of a spoke field and its partner. -/
def spokeDelta (classify : Field → Field → PairChange) (name : String) (f : Field) :
    Option (String × Field) → FieldDelta
  | none => .removed f
  | some (other, h) => .pair (if other = name then classify f h else .renamed) f h

/-- The deltas of two sections: the spoke fields in code-point order of their names, then the
added ones in theirs. -/
def diffFields (classify : Field → Field → PairChange) (renames : Table String)
    (spoke hub : Table Field) : Except RenameError (List FieldDelta) := do
  checkRenames renames
  let pairs ← spoke.sorted.mapM fun (name, f) => do
    return (name, f, ← partner? renames spoke hub name)
  let claimed := pairs.filterMap fun (_, _, partner) => partner.map Prod.fst
  let added := hub.sorted.filter fun e => !claimed.contains e.1
  return pairs.map (fun (name, f, partner) => spokeDelta classify name f partner) ++
    added.map fun e => .added e.2

/-- What follows a field's path in the paths of the secret fields below it. -/
def secretTails (r : Resource) (f : Field) : List String :=
  (r.secretPathsUnder f.path).map fun p => String.ofList (p.toList.drop f.path.length)

/-- What became of a field of the same name: secrets count before shapes, and a value without
a shape compares only with another one. -/
def classify (spoke hub : ResourceSide) (f g : Field) : PairChange :=
  let below := secretTails spoke.resource f
  let belowHub := secretTails hub.resource g
  if g.isSecret && !f.isSecret then .shapeChangedToSecret
  else if f.isSecret && !g.isSecret then .shapeChanged
  else if belowHub.any (!below.contains ·) then .shapeChangedToSecret
  else if below.any (!belowHub.contains ·) then .shapeChanged
  else
    match f.shape?, g.shape? with
    | none, none => .intact
    | some x, some y =>
      if Api.sameStructure spoke.api hub.api x y then .intact else .shapeChanged
    | _, _ => .unknown

def logSection (resource sectionName : String) (deltas : List FieldDelta) : Logged Unit :=
  deltas.forM fun d => log .debug "delta" s!"{resource} {sectionName}: {d.text}"

/-- The deltas from a spoke resource to the hub resource, with the renames of the hub. -/
def compute (spoke hub : ResourceSide) : Attempt ResourceDelta := do
  let renames := (← Attempt.ofExcept hub.resource.renames).newOf
  let diff := fun a b =>
    Attempt.ofExcept ((diffFields (classify spoke hub) renames a b).mapError .rename)
  let spec ← diff spoke.resource.spec hub.resource.spec
  let status ← diff spoke.resource.status hub.resource.status
  logSection hub.resource.names.camel "spec" spec
  logSection hub.resource.names.camel "status" status
  return { spec, status }

end ResourceDelta

end ResourceVersions
