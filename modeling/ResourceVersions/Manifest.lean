import ResourceVersions.Config.Document
import ResourceVersions.FilePath

/-!
# Version manifests

A manifest names the hub version and says of every version whether it is deprecated and where
its API description and its configuration are. Paths are relative to the manifest.
-/
namespace ResourceVersions

inductive Status where
  | available
  | deprecated
deriving DecidableEq, Repr

namespace Status

def text : Status → String
  | available => "available"
  | deprecated => "deprecated"

def ofText? : String → Option Status
  | "available" => some available
  | "deprecated" => some deprecated
  | _ => none

end Status

/-- The manifest entry of one version. -/
structure VersionInfo where
  status : Status := .available
  api? : Option String := none
  config? : Option String := none
deriving DecidableEq, Repr, Inhabited

def VersionInfo.isDeprecated (info : VersionInfo) : Bool := info.status == .deprecated

structure Manifest where
  service : String
  hubVersion : String
  versions : Table VersionInfo
  group? : Option String
  baseDir : FilePath

namespace Manifest

def resolve (m : Manifest) (relative : String) : FilePath := m.baseDir.child relative

def readInfo (place : String) (d : Document) : Except ConfigError VersionInfo := do
  let entries ← Config.keyed place ["status", "api", "config"] d
  let text := fun key => (Document.entry? entries key).bind Document.text?
  let info := fun status => { status, api? := text "api", config? := text "config" }
  match Document.entry? entries "status" with
  | none => return info .available
  | some d =>
    match d.text?.bind Status.ofText? with
    | some status => return info status
    | none => .error (.unknownStatus place d.shown)

def requireText (entries : List (Atom × Document)) (key : String) :
    Except ConfigError String :=
  match (Document.entry? entries key).bind Document.text? with
  | some s => .ok s
  | none => .error (.manifestLacks key)

/-- The manifest that a document describes, with its paths below a directory. -/
def read (d : Document) (baseDir : FilePath) : Except ConfigError Manifest :=
  match d with
  | .atom .null => .error .emptyManifest
  | d => do
    let entries ← Config.keyed "manifest" ["service", "group", "hub_version", "versions"] d
    let service ← requireText entries "service"
    let hubVersion ← requireText entries "hub_version"
    match Config.setValue entries "versions" with
    | .mapping infos =>
      let versions ← Config.readEntries "versions" readInfo infos
      return {
        service
        hubVersion
        versions := Table.ofList versions
        group? := (Document.entry? entries "group").bind Document.text?
        baseDir }
    | _ => .error .noVersions

end Manifest

end ResourceVersions
