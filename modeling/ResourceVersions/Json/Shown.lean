import ResourceVersions.Json.Basic
import ResourceVersions.Number.Shortest
import ResourceVersions.Text.Quoted

/-!
# Documents in messages

A message shows a document in the notation of the generated language: quoted texts, and lists
and mappings in the order of their entries.
-/
namespace ResourceVersions.Json

mutual
def shown : Json → String
  | .null => "None"
  | .bool b => if b then "True" else "False"
  | .int n => toString n
  | .float x => x.text
  | .str s => Text.quoted s
  | .arr items => "[" ++ ", ".intercalate (shownItems items) ++ "]"
  | .obj fields => "\x7b" ++ ", ".intercalate (shownFields fields) ++ "\x7d"

def shownItems : List Json → List String
  | [] => []
  | d :: rest => shown d :: shownItems rest

def shownFields : List (String × Json) → List String
  | [] => []
  | (k, d) :: rest => (Text.quoted k ++ ": " ++ shown d) :: shownFields rest
end

end ResourceVersions.Json
