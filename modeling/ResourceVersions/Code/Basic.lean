import ResourceVersions.Value.Basic

/-!
# Conversion code

The statements that a conversion function is made of, independent of how they are written. An
allocation creates a structure without values or an empty list or mapping; a guard runs its
body only if its subject is set; a loop goes through a list or through the entries of a
mapping. `stash` keeps a value in the metadata, and `unstash` restores an attribute from there
if something was kept.
-/
namespace ResourceVersions.Code

/-- A generated class; the alias names the module it comes from, if it is not the local one. -/
structure TypeRef where
  name : String
  alias? : Option String := none
deriving DecidableEq, Repr, Inhabited

inductive Expr where
  | name (ident : String)
  | attr (base : Expr) (attr : String)
  | type (ref : TypeRef)
  | const (value : Value)
  /-- an independent copy of a value that holds no objects -/
  | valueCopy (value : Expr)
  /-- the result of a copy helper -/
  | recurse (helper : String) (value : Expr)
deriving Inhabited

/-- What an allocation creates. -/
inductive Fresh where
  | struct (type : TypeRef)
  | list
  | map
deriving DecidableEq, Repr, Inhabited

/-- What a loop goes through. -/
inductive LoopRange where
  | items
  | entries (keyVar : String)
deriving DecidableEq, Repr, Inhabited

inductive Stmt where
  | comment (text : String)
  | assign (target value : Expr)
  | allocate (var : String) (fresh : Fresh)
  | guard (subject : Expr) (body orelse : List Stmt)
  | loop (var : String) (range : LoopRange) (subject : Expr) (body : List Stmt)
  | append (container value : Expr)
  | setItem (container key value : Expr)
  | stash (store : Expr) (fieldId : String) (value : Expr)
  | unstash (store : Expr) (fieldId : String) (base : Expr) (attr : String) (owner : TypeRef)
  | ret (value : Expr)
  | func (name : String) (params : List (String × Option TypeRef)) (body : List Stmt)
      (docstring? : Option String)
deriving Inhabited

/-- A function definition as a unit. -/
structure Func where
  name : String
  params : List (String × Option TypeRef)
  body : List Stmt
  docstring? : Option String := none

def Func.stmt (f : Func) : Stmt := .func f.name f.params f.body f.docstring?

end ResourceVersions.Code
