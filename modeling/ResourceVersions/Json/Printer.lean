import ResourceVersions.Json.Basic
import ResourceVersions.Number.Shortest
import ResourceVersions.Text.Quoted

/-!
# Writing JSON text

Mappings are written in code-point order of their keys, with `", "` and `": "` as separators.
Characters beyond ASCII are written as code unit escapes, those beyond the first plane as two.
-/
namespace ResourceVersions.Json

/-- The escape of one code unit. -/
def unitEscape (n : Nat) : List Char := '\\' :: 'u' :: Text.hex 4 n

def escapedChar (c : Char) : List Char :=
  if c = '"' then ['\\', '"']
  else if c = '\\' then ['\\', '\\']
  else if c = '\n' then ['\\', 'n']
  else if c = '\r' then ['\\', 'r']
  else if c = '\t' then ['\\', 't']
  else if c = '\x0c' then ['\\', 'f']
  else if c = '\x08' then ['\\', 'b']
  else if 0x20 ≤ c.toNat ∧ c.toNat < 0x7f then [c]
  else if c.toNat < 0x10000 then unitEscape c.toNat
  else
    let n := c.toNat - 0x10000
    unitEscape (0xd800 + n / 0x400) ++ unitEscape (0xdc00 + n % 0x400)

def stringText (s : String) : String :=
  String.ofList ('"' :: (s.toList.flatMap escapedChar ++ ['"']))

def floatText : Binary64 → String := Binary64.textWith "Infinity" "NaN"

mutual
def text : Json → String
  | .null => "null"
  | .bool b => if b then "true" else "false"
  | .int n => toString n
  | .float x => floatText x
  | .str s => stringText s
  | .arr items => "[" ++ ", ".intercalate (textItems items) ++ "]"
  | .obj fields =>
    let entries := (textFields fields).mergeSort (fun a b => decide (a.1 ≤ b.1))
    "\x7b" ++ ", ".intercalate (entries.map fun e => stringText e.1 ++ ": " ++ e.2) ++ "\x7d"

def textItems : List Json → List String
  | [] => []
  | d :: rest => text d :: textItems rest

def textFields : List (String × Json) → List (String × String)
  | [] => []
  | (k, d) :: rest => (k, text d) :: textFields rest
end

end ResourceVersions.Json
