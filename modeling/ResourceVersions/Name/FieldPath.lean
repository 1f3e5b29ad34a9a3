/-!
# Field paths

A path names a field inside a field: `.` leads to a member of a structure and `..` to a member
of the elements of a list or map.
-/
namespace ResourceVersions.FieldPath

/-- What is left of a reversed path behind its last separator. -/
def parentReversed (s : List Char) : List Char :=
  match s.dropWhile (· != '.') with
  | '.' :: '.' :: rest => rest
  | '.' :: rest => rest
  | _ => []

/-- The path of the field that contains the field at a path; empty for a top-level field. -/
def parent (path : String) : String :=
  String.ofList (parentReversed path.toList.reverse).reverse

def isNested (path : String) : Bool := path.toList.contains '.'

/-- A member path below a path. -/
def child (path : String) (throughElements : Bool) (member : String) : String :=
  path ++ (if throughElements then ".." else ".") ++ member

end ResourceVersions.FieldPath
