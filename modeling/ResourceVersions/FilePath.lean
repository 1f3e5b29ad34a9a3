import ResourceVersions.Text.Split

/-!
# File paths

A path is a root and names. Dots and empty names are left out, `..` is kept, and a path with a
root replaces what it is joined to. Exactly two leading slashes are a root of their own.
-/
namespace ResourceVersions

structure FilePath where
  root : String
  names : List String
deriving DecidableEq, Repr, Inhabited

namespace FilePath

def here : FilePath := ⟨"", []⟩

/-- The root that leading slashes make. -/
def rootOf : List Char → String
  | '/' :: '/' :: '/' :: _ => "/"
  | '/' :: '/' :: _ => "//"
  | '/' :: _ => "/"
  | _ => ""

def ofText (s : String) : FilePath :=
  ⟨rootOf s.toList, (Text.split '/' s).filter fun n => n != "" && n != "."⟩

def text (p : FilePath) : String :=
  if p.root.isEmpty && p.names.isEmpty then "." else p.root ++ "/".intercalate p.names

def join (p q : FilePath) : FilePath :=
  if q.root.isEmpty then ⟨p.root, p.names ++ q.names⟩ else q

/-- The path without its last name. -/
def parent (p : FilePath) : FilePath := ⟨p.root, p.names.dropLast⟩

/-- A path as text, joined to a path. -/
def child (p : FilePath) (relative : String) : FilePath := p.join (ofText relative)

end FilePath

end ResourceVersions
