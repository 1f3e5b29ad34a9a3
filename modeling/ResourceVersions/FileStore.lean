import ResourceVersions.FilePath
import ResourceVersions.Manifest
import ResourceVersions.Yaml.Reader

/-!
# Stored files

What a run can read and write. Configurations and manifests are YAML documents, given as a text
or at a path.
-/
namespace ResourceVersions

structure FileStore where
  /-- the text at a path, or the reason why there is none -/
  read : String → Except FileFault String
  /-- why a file cannot be written, given the paths of the files written before it -/
  refusal? : (written : List FilePath) → FilePath → Option FileFault := fun _ _ => none

namespace FileStore

/-- The files whose texts are known by their paths, and no others. -/
def ofTable (files : Table (Except FileFault String)) : FileStore where
  read path := files.getD path (.error .missing)

/-- Where a YAML document comes from. -/
structure Source where
  path? : Option String := none
  stream? : Option String := none
  text? : Option String := none

/-- The text of a source: a text goes before a stream and a stream before a path. -/
def sourceText (store : FileStore) (source : Source) : Except ConfigError String :=
  match source.text?.or source.stream?, source.path? with
  | some text, _ => .ok text
  | none, some path => (store.read path).mapError (.unreadable path)
  | none, none => .error .noDocument

def document (store : FileStore) (source : Source) : Except ConfigError Document := do
  match Yaml.read? (← store.sourceText source) with
  | some d => return d
  | none => .error .invalidYaml

def config (store : FileStore) (source : Source) : Except ConfigError Config := do
  Config.read (← store.document source)

/-- The manifest of a source; paths in it are below the manifest's directory if it was read
from a path. -/
def manifest (store : FileStore) (source : Source) : Except ConfigError Manifest := do
  let d ← store.document source
  let baseDir :=
    match source.text?, source.stream?, source.path? with
    | none, none, some path => (FilePath.ofText path).parent
    | _, _, _ => .here
  Manifest.read d baseDir

end FileStore

end ResourceVersions
