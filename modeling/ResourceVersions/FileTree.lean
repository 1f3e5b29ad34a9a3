import ResourceVersions.FileStore

/-!
# Files in a tree

Files and directories around a working directory. A path is followed name by name, and every
name before the last has to lead to a directory. What is above the working directory are
directories of which nothing else is known.
-/
namespace ResourceVersions

/-- Where paths start: so many levels above the working directory, or at the root. -/
inductive Origin where
  | above (levels : Nat)
  | root
deriving DecidableEq

/-- A place in the tree, by the names on the way to it. -/
structure Location where
  origin : Origin
  names : List String
deriving DecidableEq

namespace Location

/-- Where a path starts. -/
def start (p : FilePath) : Location := ⟨if p.root.isEmpty then .above 0 else .root, []⟩

def child (l : Location) (name : String) : Location := { l with names := l.names ++ [name] }

/-- The directory above. The root is above itself. -/
def parent (l : Location) : Location :=
  match l.origin, l.names with
  | .above levels, [] => ⟨.above (levels + 1), []⟩
  | origin, names => ⟨origin, names.dropLast⟩

end Location

structure FileTree where
  files : List (Location × String)
  directories : List Location

namespace FileTree

def empty : FileTree := ⟨[], []⟩

def isFile (t : FileTree) (l : Location) : Bool := (t.files.lookup l).isSome
def isDirectory (t : FileTree) (l : Location) : Bool := l.names.isEmpty || t.directories.contains l

/-- The most bytes that a name may have. -/
def maxNameSize : Nat := 255

/-- Where a name leads to from a place. -/
def step (t : FileTree) (l : Location) (name : String) : Except FileFault Location :=
  if !t.isDirectory l then .error (if t.isFile l then .notDirectory else .missing)
  else if name = "" ∨ name = "." then .ok l
  else if name = ".." then .ok l.parent
  else if name.utf8ByteSize > maxNameSize then .error .longName
  else .ok (l.child name)

/-- Where names lead to from a place. -/
def follow (t : FileTree) (l : Location) (names : List String) : Except FileFault Location :=
  names.foldlM t.step l

/-- Fails where a path holds a null character. -/
def checkCharacters (path : String) : Except FileFault Unit :=
  if path.toList.contains (Char.ofNat 0) then .error .nullCharacter else .ok ()

/-- The text at a path. -/
def read (t : FileTree) (path : String) : Except FileFault String := do
  checkCharacters path
  if path.isEmpty then throw .missing
  let l ← t.follow (.start (.ofText path)) (Text.split '/' path)
  match t.files.lookup l with
  | some text => return text
  | none => throw (if t.isDirectory l then .isDirectory else .missing)

/-- Makes a directory, its last name first, in one that is there. -/
def makeDirectory (t : FileTree) (start : Location) : List String → Except FileFault FileTree
  | [] => .error .present
  | name :: above => do
    let l ← t.follow start above.reverse
    let new ← t.step l name
    if t.isDirectory new || t.isFile new then throw .present
    return { t with directories := new :: t.directories }

/-- Makes a directory, its last name first, unless it is there. -/
def provideDirectory (t : FileTree) (start : Location) (names : List String) :
    Except FileFault FileTree :=
  match t.makeDirectory start names with
  | .ok t => .ok t
  | .error fault =>
    match t.follow start names.reverse with
    | .ok l => if t.isDirectory l then .ok t else .error fault
    | .error _ => .error fault

/-- Makes a directory, its last name first, and the missing ones above it. -/
def provideDirectories (t : FileTree) (start : Location) : List String → Except FileFault FileTree
  | [] => .ok t
  | name :: above =>
    match t.provideDirectory start (name :: above) with
    | .error .missing => do
      (← t.provideDirectories start above).provideDirectory start (name :: above)
    | other => other

/-- The tree with a text at a path. The directories above it are made. -/
def write (t : FileTree) (path : FilePath) (text : String) : Except FileFault FileTree := do
  checkCharacters path.text
  let start := Location.start path
  let t ← t.provideDirectories start path.parent.names.reverse
  let l ← t.follow start path.names
  if t.isDirectory l then throw .isDirectory
  return { t with files := (l, text) :: t.files.filter (·.1 != l) }

/-- The tree with texts at paths, passing over what cannot be written. -/
def writeAll (t : FileTree) (texts : List (FilePath × String)) : FileTree :=
  texts.foldl (fun t e => (t.write e.1 e.2).toOption.getD t) t

def ofTable (files : Table String) : FileTree :=
  empty.writeAll (files.entries.map fun e => (.ofText e.1, e.2))

/-- The paths of the files below the working directory. -/
def paths (t : FileTree) : List String :=
  (t.files.filter (·.1.origin = .above 0)).map fun f => "/".intercalate f.1.names

/-- What can be read and written, the written files being added to the tree. -/
def store (t : FileTree) : FileStore where
  read := t.read
  refusal? written path :=
    match (t.writeAll (written.map fun p => (p, ""))).write path "" with
    | .ok _ => none
    | .error fault => some fault

end FileTree

end ResourceVersions
