import ResourceVersions.CommandLine

/-!
# The program

Reads what the arguments name, runs the command line on it and carries out its outcome.
-/
namespace ResourceVersions.Main

/-- Why a file could not be read. A directory can be opened and fails later, without a name. -/
def faultOf : IO.Error → FileFault
  | .inappropriateType (some _) .. => .notDirectory
  | .inappropriateType none .. => .isDirectory
  | .permissionDenied .. => .denied
  | _ => .missing

def readText (path : String) : IO (String × Except FileFault String) := do
  try return (path, .ok (← IO.FS.readFile path))
  catch e => return (path, .error (faultOf e))

/-- The manifest and the files that it names. -/
def loadFiles (manifest : String) : IO FileStore := do
  let entry ← readText manifest
  let store := FileStore.ofTable (.ofList [entry])
  match store.manifest { path? := some manifest } with
  | .error _ => return store
  | .ok m =>
    let others ← (Registry.filesOf m).mapM readText
    return .ofTable (.ofList (entry :: others))

def writeFile (file : Package.FileWrite) : IO Unit := do
  IO.FS.createDirAll file.path.parent.text
  IO.FS.writeFile file.path.text file.text

def run (args : List String) : IO UInt32 := do
  let program := (← IO.appPath).toString
  let store ← match CommandLine.parse? args with
    | none => pure (FileStore.ofTable ∅)
    | some c => loadFiles c.manifest
  let outcome := CommandLine.run program store args
  outcome.files.forM writeFile
  IO.print outcome.stdout
  IO.eprint outcome.stderr
  return outcome.exitCode

end ResourceVersions.Main

def main (args : List String) : IO UInt32 := ResourceVersions.Main.run args
