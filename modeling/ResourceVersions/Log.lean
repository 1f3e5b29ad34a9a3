import ResourceVersions.Error

/-!
# Log

Log records are data: a run gives them back in order, also when it fails. `Attempt` is a
computation that may fail and that keeps the records written before the failure.
-/
namespace ResourceVersions

inductive Level where
  | debug
  | info
  | warning
  | error
deriving DecidableEq, Repr

namespace Level

def rank : Level → Nat
  | debug => 0
  | info => 1
  | warning => 2
  | error => 3

def text : Level → String
  | debug => "DEBUG"
  | info => "INFO"
  | warning => "WARNING"
  | error => "ERROR"

end Level

/-- The name that all loggers share. -/
def rootLogger : String := "henkan"

/-- The logger of one part of the program. -/
def logger (part : String) : String := rootLogger ++ "." ++ part

structure Record where
  level : Level
  logger : String
  text : String
deriving DecidableEq, Repr

def Record.line (r : Record) : String := s!"{r.level.text} {r.logger}: {r.text}"

/-- A computation that writes log records. -/
abbrev Logged := StateM (List Record)

/-- A computation that writes log records and may fail; a failure keeps the records. -/
abbrev Attempt := ExceptT Error Logged

def logTo (logger : String) (level : Level) (text : String) : Logged Unit :=
  modify (· ++ [⟨level, logger, text⟩])

def log (level : Level) (part text : String) : Logged Unit := logTo (logger part) level text

namespace Attempt

variable {α : Type}

def ofExcept (r : Except Error α) : Attempt α := ExceptT.mk (pure r)

def schema (r : Except SchemaError α) : Attempt α := ofExcept (r.mapError .schema)

/-- The result and the records of a run. -/
def run (attempt : Attempt α) : Except Error α × List Record :=
  StateT.run (ExceptT.run attempt) []

/-- The outcome as a value, so that a failure does not end the run. -/
def outcome (attempt : Attempt α) : Logged (Except Error α) := ExceptT.run attempt

end Attempt

end ResourceVersions
