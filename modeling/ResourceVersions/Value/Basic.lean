import ResourceVersions.Json.Basic
import ResourceVersions.Number.Shortest
import ResourceVersions.Value.Timestamp

/-!
# Values

The values of generated attributes: documents, extended by timestamps and by the objects of
classes. An object holds all attributes of its class in the order of their declaration.
-/
namespace ResourceVersions

inductive Value where
  | null
  | bool (b : Bool)
  | int (n : Int)
  | float (x : Binary64)
  | str (s : String)
  | datetime (t : Timestamp)
  | list (items : List Value)
  | dict (entries : List (String × Value))
  | object (className : String) (attrs : List (String × Value))
deriving Inhabited

namespace Value

def isNull : Value → Bool
  | null => true
  | _ => false

mutual

/-- The value of a document. -/
def ofJson : Json → Value
  | .null => null
  | .bool b => bool b
  | .int n => int n
  | .float x => float x
  | .str s => str s
  | .arr items => list (ofItems items)
  | .obj fields => dict (ofFields fields)

def ofItems : List Json → List Value
  | [] => []
  | d :: rest => ofJson d :: ofItems rest

def ofFields : List (String × Json) → List (String × Value)
  | [] => []
  | (k, d) :: rest => (k, ofJson d) :: ofFields rest

end

mutual

/-- The value as a document: timestamps as texts, objects as mappings of the attributes that
are set. -/
def toJson : Value → Json
  | null => .null
  | bool b => .bool b
  | int n => .int n
  | float x => .float x
  | str s => .str s
  | datetime t => .str t.text
  | list items => .arr (toItems items)
  | dict entries => .obj (toFields entries)
  | object _ attrs => .obj (toSetFields attrs)

def toItems : List Value → List Json
  | [] => []
  | v :: rest => toJson v :: toItems rest

def toFields : List (String × Value) → List (String × Json)
  | [] => []
  | (k, v) :: rest => (k, toJson v) :: toFields rest

/-- The attributes that are not null. -/
def toSetFields : List (String × Value) → List (String × Json)
  | [] => []
  | (k, v) :: rest => if v.isNull then toSetFields rest else (k, toJson v) :: toSetFields rest

end

mutual

/-- The value in the notation of the generated language. -/
def shown : Value → String
  | null => "None"
  | bool b => if b then "True" else "False"
  | int n => toString n
  | float x => x.text
  | str s => Text.quoted s
  | datetime t => t.shown
  | list items => "[" ++ ", ".intercalate (shownItems items) ++ "]"
  | dict entries => "\x7b" ++ ", ".intercalate (shownEntries entries) ++ "\x7d"
  | object className attrs => className ++ "(" ++ ", ".intercalate (shownAttrs attrs) ++ ")"

def shownItems : List Value → List String
  | [] => []
  | v :: rest => shown v :: shownItems rest

def shownEntries : List (String × Value) → List String
  | [] => []
  | (k, v) :: rest => (Text.quoted k ++ ": " ++ shown v) :: shownEntries rest

def shownAttrs : List (String × Value) → List String
  | [] => []
  | (k, v) :: rest => (k ++ "=" ++ shown v) :: shownAttrs rest

end

end Value

end ResourceVersions
