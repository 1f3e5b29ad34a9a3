import ResourceVersions.Json.Shown
import ResourceVersions.Text.Digit

/-!
# Documents with typed keys

Settings come as documents whose mappings may have any value without parts as a key, so that
the number 5 and the text `5` are two keys. A JSON document is one in which all keys are texts.
-/
namespace ResourceVersions

/-- A value without parts. -/
inductive Atom where
  | null
  | bool (b : Bool)
  | int (n : Int)
  | float (x : Binary64)
  | text (s : String)
  | date (year month day : Nat)
deriving DecidableEq, Inhabited

inductive Document where
  | atom (a : Atom)
  | list (items : List Document)
  | mapping (entries : List (Atom × Document))
deriving Inhabited

namespace Atom

open Text

/-- How a message names the atom. -/
def label : Atom → String
  | null => "None"
  | bool b => if b then "True" else "False"
  | int n => toString n
  | float x => x.text
  | text s => s
  | date y m d => s!"{padded 4 y}-{padded 2 m}-{padded 2 d}"

/-- How a message shows the atom as a value. -/
def shown : Atom → String
  | text s => Text.quoted s
  | date y m d => s!"datetime.date({y}, {m}, {d})"
  | a => a.label

/-- Null, false, zero and the empty text count as unset. -/
def isSet : Atom → Bool
  | null => false
  | bool b => b
  | int n => n != 0
  | float (.finite _ m _) => m != 0
  | float _ => true
  | text s => !s.isEmpty
  | date .. => true

def typeName : Atom → String
  | null => "NoneType"
  | bool _ => "bool"
  | int _ => "int"
  | float _ => "float"
  | text _ => "str"
  | date .. => "date"

def text? : Atom → Option String
  | text s => some s
  | _ => none

/-- The atom that stands for all that are equal as keys: booleans and integral decimals are
integers. -/
def keyForm : Atom → Atom
  | bool b => int (if b then 1 else 0)
  | float (.finite negative m e) =>
    let (num, den) := Binary64.ratio m e
    if num % den = 0 then int (if negative then -(num / den : Nat) else (num / den : Nat))
    else float (.finite negative m e)
  | a => a

end Atom

namespace Document

def null : Document := .atom .null
def text (s : String) : Document := .atom (.text s)

def text? : Document → Option String
  | .atom a => a.text?
  | _ => none

/-- The entry of a mapping under a text. -/
def entry? (entries : List (Atom × Document)) (key : String) : Option Document :=
  entries.lookup (.text key)

/-- Null, false, zero and everything empty count as unset. -/
def isSet : Document → Bool
  | .atom a => a.isSet
  | .list items => !items.isEmpty
  | .mapping entries => !entries.isEmpty

/-- What a message calls a document of this form. -/
def typeName : Document → String
  | .atom a => a.typeName
  | .list _ => "list"
  | .mapping _ => "dict"

mutual
/-- How a message shows the document. -/
def shown : Document → String
  | .atom a => a.shown
  | .list items => "[" ++ ", ".intercalate (shownItems items) ++ "]"
  | .mapping entries => "\x7b" ++ ", ".intercalate (shownEntries entries) ++ "\x7d"

def shownItems : List Document → List String
  | [] => []
  | d :: rest => shown d :: shownItems rest

def shownEntries : List (Atom × Document) → List String
  | [] => []
  | (k, d) :: rest => (k.shown ++ ": " ++ shown d) :: shownEntries rest
end

mutual
/-- A JSON document, its keys being texts. -/
def ofJson : Json → Document
  | .null => .null
  | .bool b => .atom (.bool b)
  | .int n => .atom (.int n)
  | .float x => .atom (.float x)
  | .str s => .text s
  | .arr items => .list (ofJsonItems items)
  | .obj fields => .mapping (ofJsonFields fields)

def ofJsonItems : List Json → List Document
  | [] => []
  | d :: rest => ofJson d :: ofJsonItems rest

def ofJsonFields : List (String × Json) → List (Atom × Document)
  | [] => []
  | (k, d) :: rest => (.text k, ofJson d) :: ofJsonFields rest
end

end Document

end ResourceVersions
