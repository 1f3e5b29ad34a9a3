import ResourceVersions.Resource.Basic

/-!
# The renames of a resource

The input renames of all operations of a resource, between capitalised names. Together they
have to be one-to-one.
-/
namespace ResourceVersions

/-- A one-to-one renaming, readable from both sides. -/
structure Renaming where
  newOf : Table String := ∅
  oldOf : Table String := ∅

namespace Resource

/-- Adds a pair that has to agree with the pairs before it. -/
def addRename (resource : String) (r : Renaming) (old new : String) :
    Except RenameError Renaming :=
  let known := r.newOf.getD old new
  let knownOld := r.oldOf.getD new old
  if known ≠ new then .error (.twoTargets resource old known new)
  else if knownOld ≠ old then .error (.twoSources resource knownOld old new)
  else .ok { newOf := r.newOf.insert old new, oldOf := r.oldOf.insert new old }

/-- The input renames of all operations, each operation's by old member name. -/
def renamePairs (r : Resource) : List (String × String) :=
  r.ops.toList.flatMap fun op => (r.settings.renamesOf op.name).sorted

def renames (r : Resource) : Except Error Renaming :=
  r.renamePairs.foldlM (fun acc (old, new) => do
    let old ← Names.of old
    let new ← Names.of new
    (addRename r.names.camel acc old.camel new.camel).mapError .rename) {}

end Resource

end ResourceVersions
