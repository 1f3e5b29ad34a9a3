import ResourceVersions.Resource.Basic

/-!
# Field deltas

How one field differs between a spoke version and the hub. A field that only one version has
was added or removed; a pair of fields carries what became of it.
-/
namespace ResourceVersions

/-- What became of a field that both versions have. -/
inductive PairChange where
  | intact
  | renamed
  | shapeChanged
  | shapeChangedToSecret
  | unknown
deriving DecidableEq, Repr

/-- What became of a field. -/
inductive Change where
  | both (change : PairChange)
  | added
  | removed
deriving DecidableEq, Repr

def Change.text : Change → String
  | both .intact => "Intact"
  | both .renamed => "Renamed"
  | both .shapeChanged => "ShapeChanged"
  | both .shapeChangedToSecret => "ShapeChangedToSecret"
  | both .unknown => "Unknown"
  | added => "Added"
  | removed => "Removed"

/-- Whether conversions cover a change. -/
def PairChange.isSupported : PairChange → Bool
  | intact | renamed => true
  | shapeChanged | shapeChangedToSecret | unknown => false

inductive FieldDelta where
  | pair (change : PairChange) (spoke hub : Field)
  | added (hub : Field)
  | removed (spoke : Field)
deriving DecidableEq, Repr

/-- A change together with fields that it cannot have, of one resource. -/
structure SideMismatch where
  change : Change
  resource : String
  spoke? : Option Field
  hub? : Option Field
deriving DecidableEq, Repr

def SideMismatch.message (m : SideMismatch) : String :=
  let shown := fun (f? : Option Field) =>
    (f?.map fun f => s!"Field({m.resource}:{f.path})").getD "None"
  s!"A {m.change.text} delta can't have spoke={shown m.spoke?} and hub={shown m.hub?}"

namespace FieldDelta

/-- The delta of a change with the fields at hand; only an added field may lack a spoke field
and only a removed one a hub field. -/
def ofSides (change : Change) (resource : String) (spoke? hub? : Option Field) :
    Except SideMismatch FieldDelta :=
  match change, spoke?, hub? with
  | .both c, some s, some h => .ok (pair c s h)
  | .added, none, some h => .ok (added h)
  | .removed, some s, none => .ok (removed s)
  | _, _, _ => .error ⟨change, resource, spoke?, hub?⟩

def change : FieldDelta → Change
  | pair c _ _ => .both c
  | added _ => .added
  | removed _ => .removed

def spoke? : FieldDelta → Option Field
  | pair _ s _ => some s
  | added _ => none
  | removed s => some s

def hub? : FieldDelta → Option Field
  | pair _ _ h => some h
  | added h => some h
  | removed _ => none

/-- The name of the spoke field, or of the hub field where there is no other. -/
def name : FieldDelta → String
  | pair _ s _ => s.names.camel
  | added h => h.names.camel
  | removed s => s.names.camel

def text (d : FieldDelta) : String :=
  match d with
  | pair .renamed s h => s!"{d.change.text}({s.names.camel}->{h.names.camel})"
  | _ => s!"{d.change.text}({d.name})"

def isSupported : FieldDelta → Bool
  | pair c _ _ => c.isSupported
  | _ => true

end FieldDelta

/-- The deltas of the fields of a resource. -/
structure ResourceDelta where
  spec : List FieldDelta
  status : List FieldDelta

namespace ResourceDelta

def all (d : ResourceDelta) : List FieldDelta := d.spec ++ d.status
def unsupported (d : ResourceDelta) : List FieldDelta := d.all.filter fun f => !f.isSupported

end ResourceDelta

end ResourceVersions
