import ResourceVersions.Conversion.Functions
import ResourceVersions.Registry.Compare
import ResourceVersions.Source.ConversionModule
import ResourceVersions.Source.TypesModule

/-!
# Generating a package

A package has a module of types for every version that is not deprecated and a module of
conversions for every spoke among them. Failures of single resources are collected; with any
failure nothing is generated.
-/
namespace ResourceVersions

/-- Why a whole run failed. -/
inductive RunError where
  | fault (cause : Error)
  | failures (failures : List Failure)
  | unwritable (path : String) (cause : FileFault)
deriving DecidableEq, Repr

def RunError.message : RunError → String
  | fault cause => cause.message
  | failures l =>
    let details := l.map fun f => s!"{f.name}: {f.cause.message}"
    s!"{l.length} resource(s) failed to generate: " ++ "; ".intercalate details
  | unwritable path cause => cause.reason path

/-- A run that writes log records. -/
abbrev Run := ExceptT RunError Logged

namespace Run

variable {α : Type}

def ofAttempt (work : Attempt α) : Run α := ExceptT.mk do
  return (← work.outcome).mapError .fault

def ofExcept (r : Except Error α) : Run α := ExceptT.mk (pure (r.mapError .fault))

/-- The result and the records of a run. -/
def run (work : Run α) : Except RunError α × List Record := StateT.run (ExceptT.run work) []

end Run

/-- Whether an error concerns a single resource. -/
def Error.isResourceError : Error → Bool
  | .schema _ | .rename _ | .change _ => true
  | _ => false

namespace Package

/-- The layouts that can be asked for. -/
def styles : List String := ["black", "autopep8"]

/-- Fails for an unknown layout; not asking for one is fine. -/
def checkStyle (style? : Option String) : Except ConfigError Unit :=
  match style? with
  | none => .ok ()
  | some style => if styles.contains style then .ok () else .error (.unknownStyle style)

/-- Code in a layout. What is generated is laid out already. -/
def source (code : String) (style? : Option String) : Except ConfigError String := do
  checkStyle style?
  return code

/-- What the conversions of a version come to. -/
structure Conversions where
  functions : List Code.Func := []
  helpers : Conversion.Helpers := {}
  failures : List Failure := []

/-- The functions for one resource. A failure keeps the helpers that were generated for it. -/
def convertPair (c : Conversion.Converter) (helpers : Conversion.Helpers) (p : ResourcePair) :
    Logged (Except Error (List Code.Func) × Conversion.Helpers) := do
  match ← (ResourceDelta.compute ⟨c.spoke.api, p.src⟩ ⟨c.hub.api, p.dst⟩).outcome with
  | .error e => return (.error e, helpers)
  | .ok delta => return c.functions helpers p.src p.dst delta

/-- Adds the functions for one resource, or its failure. -/
def addPair (version : String) (c : Conversion.Converter) (acc : Conversions)
    (p : ResourcePair) : Run Conversions := do
  let (result, helpers) ← (convertPair c acc.helpers p : Logged _)
  match result with
  | .ok functions => return { acc with functions := acc.functions ++ functions, helpers }
  | .error e =>
    if e.isResourceError then
      let name := s!"{version}/{p.name}"
      log .error "generate" s!"{name}: {e.message}"
      return { acc with helpers, failures := acc.failures ++ [⟨name, e⟩] }
    else throw (.fault e)

/-- The functions that convert the resources of a spoke version. -/
def conversions (version : String) (spoke hub : VersionModel) : Run Conversions :=
  match Registry.pairModels spoke hub with
  | .error e => return { failures := [⟨version, .schema e⟩] }
  | .ok pairs => pairs.foldlM (addPair version { spoke, hub }) {}

def packageDoc (rest : List String) : String :=
  Source.fileText
    (["\"\"\"", "DO NOT EDIT THIS FILE!", "",
      "This package is automatically generated by the henkan build program.", "\"\"\""] ++ rest)

/-- The source that makes a package of a version. -/
def versionInit (isHub : Bool) : String :=
  packageDoc ("from .types import *" :: if isHub then [] else ["from .conversion import *"])

/-- The source that makes a package of all versions. -/
def rootInit (hub : String) (versions : List String) : String :=
  packageDoc [s!"hub_version = {Text.quoted hub}", "",
    s!"versions = {Text.quotedList versions}"]

/-- Files by path, and the failures met on the way. -/
structure Output where
  files : List (String × String) := []
  failures : List Failure := []

/-- Adds the files of one version. -/
def addVersion (r : Registry) (package : String) (hub : VersionModel) (out : Output)
    (version : String) : Run Output := do
  let m ← Run.ofExcept ((r.model version).mapError .version)
  let failed := m.failures.map fun f => { f with name := s!"{version}/{f.name}" }
  let dir := s!"{package}/{version}"
  let types ← Run.ofExcept ((Source.typesModule m).mapError .schema)
  let files := [(dir ++ "/types.py", types)]
  let isHub := version == r.hubVersion
  let (files, failures) ← if isHub then pure (files, []) else do
    let c ← conversions version m hub
    let module := Source.conversionModule m hub "hub" c.functions c.helpers.toList
    pure (files ++ [(dir ++ "/conversion.py", module)], c.failures)
  return { files := out.files ++ files ++ [(dir ++ "/__init__.py", versionInit isHub)]
           failures := out.failures ++ failed ++ failures }

/-- The files of a package by path, in code-point order of the paths. -/
def generate (r : Registry) (package : String) (style? : Option String) :
    Run (List (String × String)) := do
  Run.ofExcept ((checkStyle style?).mapError .config)
  let usable := r.usableVersions
  Run.ofExcept ((r.verify usable).mapError .version)
  let hub ← Run.ofExcept ((r.model r.hubVersion).mapError .version)
  let out ← usable.foldlM (addVersion r package hub) {}
  if !out.failures.isEmpty then throw (.failures out.failures)
  let root := (s!"{package}/__init__.py", rootInit r.hubVersion usable)
  return (Table.ofList (out.files ++ [root])).sorted

end Package

end ResourceVersions
