import ResourceVersions.Config.Basic
import ResourceVersions.Document
import ResourceVersions.Error

/-!
# Configuration documents

A configuration document is read against its schema: unknown keys and values of another type
are refused, absent and null sections are empty. Flags may be absent but not null.
-/
namespace ResourceVersions.Config

/-- The entries of a mapping; null has none. -/
def mapping (place : String) : Document → Except ConfigError (List (Atom × Document))
  | .atom .null => .ok []
  | .mapping entries => .ok entries
  | d => .error (.notMapping place d.typeName)

/-- A mapping whose keys are all among the allowed ones. -/
def keyed (place : String) (allowed : List String) (d : Document) :
    Except ConfigError (List (Atom × Document)) := do
  let entries ← mapping place d
  let unknown := (entries.map Prod.fst).filter fun k => !(k.text?.any allowed.contains)
  if unknown.isEmpty then return entries
  else
    match unknown.mapM Atom.text? with
    | some texts => .error (.unknownKeys place (sortNames texts))
    | none => .error (.keysNotTexts place)

/-- The value of a key, null where it is absent. -/
def value (entries : List (Atom × Document)) (key : String) : Document :=
  (Document.entry? entries key).getD .null

/-- The value of a key, null where it is absent, false, zero or empty. -/
def setValue (entries : List (Atom × Document)) (key : String) : Document :=
  let d := value entries key
  if d.isSet then d else .null

def textList (entries : List (Atom × Document)) (key place : String) :
    Except ConfigError (List String) :=
  match setValue entries key with
  | .atom .null => .ok []
  | .list items =>
    match items.mapM Document.text? with
    | some texts => .ok texts
    | none => .error (.notTextList place key)
  | _ => .error (.notTextList place key)

def flag (entries : List (Atom × Document)) (key place : String) : Except ConfigError Bool :=
  match Document.entry? entries key with
  | none => .ok false
  | some (.atom (.bool b)) => .ok b
  | some _ => .error (.notFlag place key)

def readSource (place : String) : Document → Except ConfigError (Option FieldSource)
  | .atom .null => .ok none
  | d => do
    let entries ← keyed (place ++ ".from") ["operation", "path"] d
    match value entries "operation", value entries "path" with
    | .atom (.text operation), .atom (.text path) => return some ⟨operation, path⟩
    | _, _ => .error (.incompleteSource place)

def readField (place : String) (d : Document) : Except ConfigError FieldConfig := do
  let entries ← keyed place ["is_secret", "is_read_only", "is_attribute", "from"] d
  let isSecret ← flag entries "is_secret" place
  let isReadOnly ← flag entries "is_read_only" place
  let isAttribute ← flag entries "is_attribute" place
  let source? ← readSource place (value entries "from")
  return { isSecret, isReadOnly, isAttribute, source? }

/-- Reads the entries of a section, each at its own place. -/
def readEntries {α : Type} (place : String) (read : String → Document → Except ConfigError α) :
    List (Atom × Document) → Except ConfigError (List (String × α))
  | [] => .ok []
  | (key, d) :: rest => do
    let name := key.label
    let entry ← read s!"{place}.{name}" d
    let others ← readEntries place read rest
    return (name, entry) :: others

/-- The new names by the old ones. -/
def textPairs : List (Atom × Document) → Option (List (String × String))
  | [] => some []
  | (.text old, .atom (.text new)) :: rest => (textPairs rest).map ((old, new) :: ·)
  | _ => none

def readRenames (place : String) (d : Document) : Except ConfigError (Table String) := do
  let entries ← keyed place ["input_fields"] d
  match setValue entries "input_fields" with
  | .atom .null => return ∅
  | .mapping names =>
    match textPairs names with
    | some pairs => return Table.ofList pairs
    | none => .error (.renamesNotTexts place)
  | _ => .error (.renamesNotTexts place)

def readIdentifier (place : String) : Document → Except ConfigError (Option String)
  | .atom .null => .ok none
  | .atom (.text s) => .ok (some s)
  | _ => .error (.identifierNotText place)

def readResource (place : String) (d : Document) : Except ConfigError ResourceConfig := do
  let entries ← keyed place
    ["fields", "renames", "unpack_attributes_map", "primary_identifier"] d
  let unpacksAttributes ← flag entries "unpack_attributes_map" place
  let primaryIdentifier? ← readIdentifier place (value entries "primary_identifier")
  let fieldsPlace := place ++ ".fields"
  let fieldDocs ← mapping fieldsPlace (value entries "fields")
  let fields ← readEntries fieldsPlace readField fieldDocs
  let renamesDoc ← keyed (place ++ ".renames") ["operations"] (value entries "renames")
  let operationsPlace := place ++ ".renames.operations"
  let operationDocs ← mapping operationsPlace (setValue renamesDoc "operations")
  let renames ← readEntries operationsPlace readRenames operationDocs
  return {
    fields := Table.ofList fields
    renames := Table.ofList renames
    unpacksAttributes
    primaryIdentifier? }

def readIgnore (d : Document) : Except ConfigError IgnoreRules := do
  let entries ← keyed "ignore" ["resource_names", "operations", "shape_names", "field_paths"] d
  let resources ← textList entries "resource_names" "ignore"
  let operations ← textList entries "operations" "ignore"
  let shapes ← textList entries "shape_names" "ignore"
  let paths ← textList entries "field_paths" "ignore"
  return { resources, operations, shapes, paths }

/-- The configuration that a document describes. -/
def read (d : Document) : Except ConfigError Config := do
  let sections ← keyed "generator config" ["ignore", "resources"] d
  let ignore ← readIgnore (value sections "ignore")
  let resourceDocs ← mapping "resources" (setValue sections "resources")
  let resources ← readEntries "resources" readResource resourceDocs
  return { ignore, resources := Table.ofList resources }

end ResourceVersions.Config
