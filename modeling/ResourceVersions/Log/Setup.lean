import ResourceVersions.Log
import ResourceVersions.Text.Split

/-!
# Showing the log

What a log record puts on the error stream. Before logging is set up, only warnings and errors
appear, as bare texts.
-/
namespace ResourceVersions

structure LogSetup where
  level? : Option Level := none
  handlers : List Level := []
deriving DecidableEq, Repr

namespace LogSetup

/-- The lowest level that is shown; detail wins over silence. -/
def chosenLevel (verbose quiet : Bool) : Level :=
  if verbose then .debug else if quiet then .warning else .info

/-- Sets the level, for the handlers that are there or else for a new one. -/
def configure (s : LogSetup) (verbose quiet : Bool) : LogSetup :=
  let level := chosenLevel verbose quiet
  { level? := some level
    handlers := if s.handlers.isEmpty then [level] else s.handlers.map fun _ => level }

/-- What a record puts on the error stream. -/
def output (s : LogSetup) (r : Record) : String :=
  let reaches := fun (level : Level) => decide (level.rank ≤ r.level.rank)
  if !reaches (s.level?.getD .warning) then ""
  else if s.handlers.isEmpty then (if reaches .warning then r.text ++ "\n" else "")
  else String.join ((s.handlers.filter reaches).map fun _ => r.line ++ "\n")

/-- The logger for a module name: the shared one, or its child named like the last part. -/
def loggerFor (name? : Option String) : String :=
  match name? with
  | none => rootLogger
  | some name =>
    if name = rootLogger then rootLogger else logger ((Text.split '.' name).getLastD "")

end LogSetup

end ResourceVersions
