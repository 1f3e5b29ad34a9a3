import ResourceVersions.Log.Setup
import ResourceVersions.Package.Write

/-!
# The command line

The arguments are a manifest, possibly an output directory, and flags at any place. Failures
are reported on the error stream behind the log.
-/
namespace ResourceVersions.CommandLine

structure Command where
  manifest : String
  outputDir : String
  dryRun : Bool
  verbose : Bool
  quiet : Bool
deriving DecidableEq, Repr

def flags : List String := ["--dry-run", "-v", "-q"]

def isFlag (arg : String) : Bool := "-".toList.isPrefixOf arg.toList

/-- The command that arguments give, if they are well-formed. -/
def parse? (args : List String) : Option Command :=
  let given := args.filter isFlag
  let command := fun manifest outputDir =>
    { manifest, outputDir, dryRun := given.contains "--dry-run", verbose := given.contains "-v"
      quiet := given.contains "-q" }
  if given.any (!flags.contains ·) then none
  else
    match args.filter (!isFlag ·) with
    | [manifest] => some (command manifest ".")
    | [manifest, outputDir] => some (command manifest outputDir)
    | _ => none

def usage (program : String) : String :=
  s!"usage: {program} <manifest.yaml> [<output dir>] [--dry-run] [-v|-q]\n"

/-- What a call of the program does. -/
structure Outcome where
  exitCode : UInt32
  stdout : String := ""
  stderr : String := ""
  files : List Package.FileWrite := []

/-- Builds and, unless nothing is written, reports how many files there are. -/
def work (store : FileStore) (c : Command) : Run Package.Written := do
  let w ← Package.build store c.manifest c.outputDir "apis" c.dryRun (some "black")
  if !c.dryRun then
    let text := s!"{w.paths.length} file(s) written to {c.outputDir}"
    (logTo rootLogger .info text : Logged Unit)
  return w

def runCommand (store : FileStore) (c : Command) : Outcome :=
  let (result, records) := (work store c).run
  let setup := LogSetup.configure {} c.verbose c.quiet
  let logged := String.join (records.map setup.output)
  match result with
  | .ok w => { exitCode := 0, stdout := w.printed, stderr := logged, files := w.files }
  | .error e =>
    { exitCode := 1, stderr := logged ++ s!">>>Generation failed: {e.message}\n" }

def run (program : String) (store : FileStore) (args : List String) : Outcome :=
  match parse? args with
  | none => { exitCode := 1, stdout := usage program }
  | some c => runCommand store c

end ResourceVersions.CommandLine
