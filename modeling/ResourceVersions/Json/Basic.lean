import ResourceVersions.Number.Binary64
import ResourceVersions.Table

/-!
# JSON documents

A document is built from null, booleans, integers, decimals, texts, lists and mappings. A
mapping keeps its entries in order; `WellFormed` says that no mapping has a key twice.
-/
namespace ResourceVersions

inductive Json where
  | null
  | bool (b : Bool)
  | int (n : Int)
  | float (x : Binary64)
  | str (s : String)
  | arr (items : List Json)
  | obj (fields : List (String × Json))
deriving Inhabited

namespace Json

def field? : Json → String → Option Json
  | .obj fields, name => fields.lookup name
  | _, _ => none

/-- The entry of a mapping, null and absence being the same. -/
def present? (d : Json) (name : String) : Option Json :=
  match d.field? name with
  | some .null => none
  | other => other

def str? : Json → Option String
  | .str s => some s
  | _ => none

def bool? : Json → Option Bool
  | .bool b => some b
  | _ => none

def items : Json → List Json
  | .arr items => items
  | _ => []

def fields : Json → List (String × Json)
  | .obj fields => fields
  | _ => []

def isObj : Json → Bool
  | .obj _ => true
  | _ => false

/-- A text field, or a fallback where there is none. -/
def strD (d : Json) (name fallback : String) : String :=
  ((d.field? name).bind str?).getD fallback

/-- The texts of a list field. -/
def strList (d : Json) (name : String) : List String :=
  (((d.field? name).map items).getD []).filterMap str?

def table (d : Json) : Table Json := Table.ofList d.fields

/-- Null, false, zero and everything empty count as unset. -/
def isSet : Json → Bool
  | .null => false
  | .bool b => b
  | .int n => n != 0
  | .float (.finite _ m _) => m != 0
  | .float _ => true
  | .str s => !s.isEmpty
  | .arr items => !items.isEmpty
  | .obj fields => !fields.isEmpty

/-- What a message calls a document of this form. -/
def typeName : Json → String
  | .null => "NoneType"
  | .bool _ => "bool"
  | .int _ => "int"
  | .float _ => "float"
  | .str _ => "str"
  | .arr _ => "list"
  | .obj _ => "dict"

mutual
/-- No mapping of the document has a key twice. -/
def WellFormed : Json → Prop
  | .arr items => WellFormedItems items
  | .obj fields => (fields.map Prod.fst).Nodup ∧ WellFormedFields fields
  | _ => True

def WellFormedItems : List Json → Prop
  | [] => True
  | d :: rest => WellFormed d ∧ WellFormedItems rest

def WellFormedFields : List (String × Json) → Prop
  | [] => True
  | (_, d) :: rest => WellFormed d ∧ WellFormedFields rest
end

end Json

end ResourceVersions
