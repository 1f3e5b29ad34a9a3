import ResourceVersions.Package.Generate
import ResourceVersions.Registry.Load

/-!
# Writing a package

Generated files go below an output directory. A dry run prints them instead, each under a line
that names it.
-/
namespace ResourceVersions.Package

/-- A file at its final path. -/
structure FileWrite where
  path : FilePath
  text : String

/-- The files below a directory, in code-point order of the relative paths. -/
def placeFiles (outputs : Table String) (outputDir : String) : List FileWrite :=
  outputs.sorted.map fun (path, text) => ⟨(FilePath.ofText outputDir).child path, text⟩

/-- What a dry run prints. -/
def dryRunText (files : List FileWrite) : String :=
  String.join (files.map fun f => s!"============ {f.path.text} ============\n{f.text}\n")

/-- What a run leaves behind: files or printed text, and the paths of the files either way. -/
structure Written where
  paths : List String
  files : List FileWrite
  printed : String

/-- Writes files behind those written before, up to the first that cannot be written. -/
def writeEach (store : FileStore) (written : List FilePath) : List FileWrite → Run Unit
  | [] => return
  | f :: rest => do
    match store.refusal? written f.path with
    | some fault => throw (.unwritable f.path.text fault)
    | none =>
      (log .info "generate" s!"Wrote {f.path.text}" : Logged Unit)
      writeEach store (written ++ [f.path]) rest

/-- Writes the files, or prints them in a dry run. -/
def write (store : FileStore) (outputs : Table String) (outputDir : String) (dryRun : Bool) :
    Run Written := do
  let files := placeFiles outputs outputDir
  let paths := files.map fun f => f.path.text
  if dryRun then return { paths, files := [], printed := dryRunText files }
  writeEach store [] files
  return { paths, files, printed := "" }

/-- Loads the versions of a manifest file, generates the package and writes it. -/
def build (store : FileStore) (manifest outputDir package : String) (dryRun : Bool)
    (style? : Option String) : Run Written := do
  let m ← Run.ofExcept ((store.manifest { path? := some manifest }).mapError .config)
  let r ← Run.ofAttempt (Registry.load store m)
  let files ← generate r package style?
  write store (.ofList files) outputDir dryRun

end ResourceVersions.Package
