import ResourceVersions.Json.Basic

/-!
# Documents in order

The document with the entries of its mappings in code-point order of their keys: what is left of
a document when the order of its entries does not count.
-/
namespace ResourceVersions

/-- Entries in code-point order of their keys. -/
def byKey {α : Type} (entries : List (String × α)) : List (String × α) :=
  entries.mergeSort fun a b => decide (a.1 ≤ b.1)

namespace Json

mutual

/-- The document with the entries of its mappings in code-point order. -/
def ordered : Json → Json
  | .arr items => .arr (orderedItems items)
  | .obj fields => .obj (byKey (orderedFields fields))
  | d => d

def orderedItems : List Json → List Json
  | [] => []
  | d :: rest => d.ordered :: orderedItems rest

def orderedFields : List (String × Json) → List (String × Json)
  | [] => []
  | (k, d) :: rest => (k, d.ordered) :: orderedFields rest

end

end Json

end ResourceVersions
