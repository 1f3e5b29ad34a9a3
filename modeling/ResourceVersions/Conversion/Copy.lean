import ResourceVersions.Api.Walk
import ResourceVersions.Code.Basic
import ResourceVersions.Model.Basic

/-!
# Copying values

The code that copies a value from one version to another. Values without objects are copied as
a whole; structures, lists and maps are copied part by part, as far as they are set. Inside a
structure the same structure is left to a helper, which is only requested here.
-/
namespace ResourceVersions.Conversion

open Code

/-- One direction between two versions. -/
structure Direction where
  src : VersionModel
  dst : VersionModel
  srcAlias? : Option String
  dstAlias? : Option String
  suffix : String

/-- The need for a helper that copies one structure to another. -/
structure HelperRequest where
  src : String
  dst : String
deriving DecidableEq, Repr

/-- Where a copy goes. -/
inductive Target where
  | assign (target : Expr)
  | append (container : Expr)
  | setItem (container key : Expr)
  | ret

def Target.store : Target → Expr → Stmt
  | assign target, v => .assign target v
  | append container, v => .append container v
  | setItem container key, v => .setItem container key v
  | ret, v => .ret v

/-- Code generation: it may fail, and the requests made before that stand. -/
abbrev Emit := ExceptT Error (StateM (List HelperRequest))

namespace Emit

variable {α : Type}

def ofExcept (r : Except Error α) : Emit α := ExceptT.mk (pure r)

def schema (r : Except SchemaError α) : Emit α := ofExcept (r.mapError .schema)

def change (e : ChangeError) : Emit α := throw (.change e)

def request (r : HelperRequest) : Emit Unit := modify (· ++ [r])

def run (work : Emit α) : Except Error α × List HelperRequest :=
  StateT.run (ExceptT.run work) []

end Emit

namespace Direction

/-- The name of the helper for a structure. -/
def helperName (d : Direction) (names : Names) : String := s!"_copy_{names.snake}_{d.suffix}"

/-- The variable that holds the copy of a value of a shape. -/
def copyVar (names : Names) (depth : Nat) : String := s!"{names.snake}_copy_{depth}"

/-- Runs statements if the source is set. Where the place has to be filled anyway, it gets
nothing otherwise. -/
def guarded (src : Expr) (body : List Stmt) (target : Target) (keepNone : Bool) : List Stmt :=
  [.guard src body (if keepNone then [target.store (.const .null)] else [])]

/-- What a member of a structure is copied from and to. -/
structure MemberCopy where
  member : String
  attr : String
  src : String
  dst : String
  isSecret : Bool

/-- Whether and how a member is copied: both versions need to have it, and both or none keep it
as a secret. -/
def memberCopy (d : Direction) (src dst : String) (dstMembers : Table ShapeRef)
    (entry : String × ShapeRef) : Except Error MemberCopy := do
  let (member, ref) := entry
  match dstMembers.get? member with
  | none => throw (.change (.missingMember dst member))
  | some dstRef =>
    let isSecret := d.src.isSecretMember src member
    if isSecret != d.dst.isSecretMember dst member then
      throw (.change (.secretMember src member))
    let names ← Names.of member
    return { member, attr := names.camelLower, src := ref.target, dst := dstRef.target, isSecret }

/-- The names of a list or map that leads to an end in both versions. -/
def collectionNames (d : Direction) (src dst : String) : Except Error Names := do
  let _ ← (d.src.api.innermost src).mapError Error.schema
  let _ ← (d.dst.api.innermost dst).mapError Error.schema
  Names.of src

/-- The code that copies the value of an expression to a target. `active` holds the structures
around it, `passed` the lists and maps since the last structure. -/
def copyFrom (d : Direction) (active passed : List String) (value : Expr) (src dst : String)
    (depth : Nat) (target : Target) (keepNone : Bool) : Emit (List Stmt) := do
  match _h : d.src.api.shapes.get? src with
  | none => throw (.schema (.undefinedShape src))
  | some shape =>
    let dstShape ← Emit.schema (d.dst.api.shape dst)
    if let .scalar _ := shape.form then return [target.store value]
    if d.src.api.isPlain src then return [target.store (.valueCopy value)]
    match shape.form, dstShape.form with
    | .struct members, .struct dstMembers =>
      let names ← Emit.ofExcept (Names.of src)
      if _hn : src ∈ active then
        Emit.request ⟨src, dst⟩
        return [target.store (.recurse (d.helperName names) value)]
      else
        let var := copyVar names depth
        let type : TypeRef := ⟨← Emit.schema (d.dst.typeName dst), d.dstAlias?⟩
        let parts ← members.sorted.mapM fun entry => do
          let m ← Emit.ofExcept (d.memberCopy src dst dstMembers entry)
          let attr := Expr.attr value m.attr
          let slot := Target.assign (.attr (.name var) m.attr)
          if m.isSecret then return [slot.store attr]
          copyFrom d (src :: active) [] attr m.src m.dst (depth + 1) slot false
        let body := .allocate var (.struct type) :: parts.flatten ++ [target.store (.name var)]
        return guarded value body target keepNone
    | .list e, .list dstElement =>
      let names ← Emit.ofExcept (d.collectionNames src dst)
      if _hn : src ∈ passed then throw (.schema (.selfContaining src))
      else
        let var := copyVar names depth
        let element ← Emit.ofExcept (Names.of e.target)
        let elementVar := s!"{element.snake}_elem_{depth}"
        let inner ← copyFrom d active (src :: passed) (.name elementVar) e.target
          dstElement.target (depth + 1) (.append (.name var)) true
        let body :=
          [.allocate var .list, .loop elementVar .items value inner, target.store (.name var)]
        return guarded value body target keepNone
    | .map _ v, .map _ dstValue =>
      let names ← Emit.ofExcept (d.collectionNames src dst)
      if _hn : src ∈ passed then throw (.schema (.selfContaining src))
      else
        let var := copyVar names depth
        let keyVar := s!"{names.snake}_key_{depth}"
        let valueNames ← Emit.ofExcept (Names.of v.target)
        let valueVar := s!"{valueNames.snake}_value_{depth}"
        let inner ← copyFrom d active (src :: passed) (.name valueVar) v.target
          dstValue.target (depth + 1) (.setItem (.name var) (.name keyVar)) true
        let body :=
          [.allocate var .map, .loop valueVar (.entries keyVar) value inner,
            target.store (.name var)]
        return guarded value body target keepNone
    | _, _ => Emit.change (.formsDiffer src dst)
termination_by ((d.src.api.shapes.unseen active).length, (d.src.api.shapes.unseen passed).length)
decreasing_by
  · exact Prod.Lex.left _ _ (Table.unseen_cons_lt _h _hn)
  · exact Prod.Lex.right _ (Table.unseen_cons_lt _h _hn)
  · exact Prod.Lex.right _ (Table.unseen_cons_lt _h _hn)

end Direction

end ResourceVersions.Conversion
