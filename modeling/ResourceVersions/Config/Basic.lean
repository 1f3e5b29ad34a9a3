import ResourceVersions.Table

/-!
# Generator configuration

What to leave out of the model and how to adjust the resources. Field settings are keyed by
field path, renames by operation and old member name.
-/
namespace ResourceVersions

/-- Where the shape of a field comes from that the create operation does not have. -/
structure FieldSource where
  operation : String
  path : String
deriving DecidableEq, Repr

structure FieldConfig where
  isSecret : Bool := false
  isReadOnly : Bool := false
  isAttribute : Bool := false
  source? : Option FieldSource := none
deriving DecidableEq, Repr

structure IgnoreRules where
  resources : List String := []
  operations : List String := []
  shapes : List String := []
  paths : List String := []

structure ResourceConfig where
  fields : Table FieldConfig := ∅
  renames : Table (Table String) := ∅
  unpacksAttributes : Bool := false
  primaryIdentifier? : Option String := none

/-- The new names of the input members of an operation by their old names. -/
def ResourceConfig.renamesOf (c : ResourceConfig) (operation : String) : Table String :=
  c.renames.getD operation ∅

structure Config where
  ignore : IgnoreRules := {}
  resources : Table ResourceConfig := ∅

namespace Config

def isIgnoredResource (c : Config) (name : String) : Bool := c.ignore.resources.contains name
def isIgnoredOperation (c : Config) (name : String) : Bool := c.ignore.operations.contains name

/-- The settings of a resource; without any, nothing is adjusted. -/
def resource (c : Config) (name : String) : ResourceConfig := c.resources.getD name {}

end Config

end ResourceVersions
