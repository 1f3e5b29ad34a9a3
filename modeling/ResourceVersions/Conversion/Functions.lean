import ResourceVersions.Api.Equality
import ResourceVersions.Conversion.CopyHelper
import ResourceVersions.Delta.Basic

/-!
# Conversion functions

For each resource one function converts a spoke object to the hub and one converts it back.
Fields that both versions have are copied; what only the source can hold is stashed in the
metadata, and what only the destination can hold is restored from there.
-/
namespace ResourceVersions.Conversion

open Code

/-- The two versions between which a converter works, and the name of the hub's module. -/
structure Converter where
  spoke : VersionModel
  hub : VersionModel
  hubAlias : String := "hub"

/-- The way of a conversion. -/
inductive Way where
  | toHub
  | fromHub
deriving DecidableEq, Repr

/-- The variable that holds the copy of the metadata. -/
def metaVar : String := "object_meta_copy"

def Converter.direction (c : Converter) : Way → Direction
  | .toHub => { src := c.spoke, dst := c.hub, srcAlias? := none, dstAlias? := some c.hubAlias
                suffix := "to_hub" }
  | .fromHub => { src := c.hub, dst := c.spoke, srcAlias? := some c.hubAlias, dstAlias? := none
                  suffix := "from_hub" }

/-- The two parts of an object that hold fields. -/
inductive Part where
  | spec
  | status
deriving DecidableEq, Repr

namespace Part

def text : Part → String
  | spec => "spec"
  | status => "status"

/-- What the class of the part adds to the name of the resource. -/
def classSuffix : Part → String
  | spec => "Spec"
  | status => "Status"

def copyVar (p : Part) : String := p.text ++ "_copy"

/-- The part of the source object. -/
def source (p : Part) : Expr := .attr (.name "src") p.text

end Part

/-- The function that converts a resource. -/
def functionName (spokeResource : Resource) : Way → String
  | .toHub => s!"convert_{spokeResource.names.snake}_to_hub"
  | .fromHub => s!"convert_{spokeResource.names.snake}_from_hub"

namespace Direction

/-- The code that copies a field. Secrets and values without a shape are taken over as they
are; everything else needs the same structure on both sides. -/
def copyField (d : Direction) (p : Part) (dstResource : String) (f g : Field) :
    Emit (List Stmt) := do
  let place := s!"{dstResource}.{g.path}"
  let value := Expr.attr p.source f.attrName
  let slot := Target.assign (.attr (.name p.copyVar) g.attrName)
  if f.isSecret != g.isSecret then Emit.change (.secretField place)
  else if f.isSecret then return [slot.store value]
  else
    match f.shape?, g.shape? with
    | none, none => return [slot.store value]
    | some x, some y =>
      if Api.sameStructure d.src.api d.dst.api x y then
        d.copyFrom [] [] value x y 1 slot false
      else Emit.change (.shapeDiffers place)
    | _, _ => Emit.change (.shapeDiffers place)

def fieldId (p : Part) (f : Field) : String := s!"{p.text}.{f.names.camel}"

/-- The code that stashes a field that the destination does not have. -/
def stashField (p : Part) (f : Field) : Stmt :=
  .stash (.name metaVar) (fieldId p f) (.attr p.source f.attrName)

/-- The code that restores a field that the source does not have. -/
def unstashField (p : Part) (owner : TypeRef) (f : Field) : Stmt :=
  .unstash (.name metaVar) (fieldId p f) (.name p.copyVar) f.attrName owner

def deltaCode (d : Direction) (way : Way) (p : Part) (dstResource : String) (owner : TypeRef)
    (delta : FieldDelta) : Emit (List Stmt) :=
  match way, delta with
  | .toHub, .pair c s h =>
    if c.isSupported then d.copyField p dstResource s h else return [unstashField p owner h]
  | .fromHub, .pair c s h =>
    if c.isSupported then d.copyField p dstResource h s else return [unstashField p owner s]
  | .toHub, .removed s => return [stashField p s]
  | .toHub, .added h => return [unstashField p owner h]
  | .fromHub, .removed s => return [unstashField p owner s]
  | .fromHub, .added h => return [stashField p h]

/-- The code that converts one part of an object, if the part is set. -/
def partCode (d : Direction) (way : Way) (p : Part) (dstResource : String)
    (deltas : List FieldDelta) : Emit (List Stmt) := do
  let owner : TypeRef := ⟨dstResource ++ p.classSuffix, d.dstAlias?⟩
  let fields ← deltas.mapM (d.deltaCode way p dstResource owner)
  let metadata : List Stmt :=
    match p with
    | .spec => []
    | .status => [.assign (.attr (.name p.copyVar) "resourceMetadata")
        (.valueCopy (.attr p.source "resourceMetadata"))]
  let body := .allocate p.copyVar (.struct owner) :: metadata ++ fields.flatten ++
    [.assign (.attr (.name "dst") p.text) (.name p.copyVar)]
  return [.guard p.source body []]

/-- The body of a conversion function: metadata, Spec and Status. -/
def functionBody (d : Direction) (way : Way) (dstResource : String) (delta : ResourceDelta) :
    Emit (List Stmt) := do
  let spec ← d.partCode way .spec dstResource delta.spec
  let status ← d.partCode way .status dstResource delta.status
  return .assign (.name metaVar) (.valueCopy (.attr (.name "src") "metadata")) ::
    spec ++ status ++ [.assign (.attr (.name "dst") "metadata") (.name metaVar)]

end Direction

namespace Converter

def functionDoc (c : Converter) (resource : String) : Way → String
  | .toHub => s!"Converts a {c.spoke.version} {resource} to the hub version {c.hub.version}"
  | .fromHub => s!"Converts a hub version {c.hub.version} {resource} to {c.spoke.version}"

def function (c : Converter) (h : Helpers) (way : Way) (spoke hub : Resource)
    (delta : ResourceDelta) : Except Error Func × Helpers :=
  let d := c.direction way
  let (src, dst) := match way with
    | .toHub => (spoke, hub)
    | .fromHub => (hub, spoke)
  let (body, h) := d.emit h (d.functionBody way dst.names.camel delta)
  let params := [("src", some ⟨src.names.camel, d.srcAlias?⟩),
    ("dst", some ⟨dst.names.camel, d.dstAlias?⟩)]
  (body.map fun body =>
    { name := functionName spoke way, params, body
      docstring? := some (c.functionDoc spoke.names.camel way) }, h)

/-- The functions that convert a resource to the hub and back. Changes that no conversion
covers are refused. -/
def functions (c : Converter) (h : Helpers) (spoke hub : Resource) (delta : ResourceDelta) :
    Except Error (List Func) × Helpers :=
  if !delta.unsupported.isEmpty then
    let texts := delta.unsupported.map FieldDelta.text
    (.error (.change (.unsupported hub.names.camel texts)), h)
  else
    match c.function h .toHub spoke hub delta with
    | (.error e, h) => (.error e, h)
    | (.ok toHub, h) =>
      match c.function h .fromHub spoke hub delta with
      | (.error e, h) => (.error e, h)
      | (.ok fromHub, h) => (.ok [toHub, fromHub], h)

end Converter

end ResourceVersions.Conversion
