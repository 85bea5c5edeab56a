import PinRing.Board.Basic

/-! What one placement pass over a section commits and reports. -/

namespace PinRing

/-- How grave a diagnostic or an issue is. -/
inductive Severity where
  | warning
  | error
deriving DecidableEq

def Severity.name : Severity → String
  | warning => "warning"
  | error => "error"

/-- A warning or error about one pin or group. -/
structure Diagnostic where
  severity : Severity
  message : String
  subject : String
deriving DecidableEq

/-- What one pass did. -/
structure PassResult where
  /-- The commits in the order in which they were made. -/
  commits : List Commit := []
  diagnostics : List Diagnostic := []
  /-- The mirror pairs that could not be placed. -/
  failures : List MirrorFailure := []
  /-- The sum of the feasible costs of the rows that were committed. -/
  cost : Int := 0

namespace PassResult

def placed (r : PassResult) : List Nat := r.commits.map (·.pin)

def warnings (r : PassResult) : List Diagnostic :=
  r.diagnostics.filter (·.severity = .warning)

def errors (r : PassResult) : List Diagnostic :=
  r.diagnostics.filter (·.severity = .error)

/-- Adds a diagnostic after all others. -/
def diagnose (r : PassResult) (d : Diagnostic) : PassResult :=
  { r with diagnostics := r.diagnostics ++ [d] }

end PassResult

/-- The warning about a pin or group that was put where its cost is infeasible. -/
def insufficientSpace (name : String) : String :=
  s!"I/O pin {name} cannot be placed in the specified region. Not enough space."

/-- The log entry that goes with a diagnostic. -/
def Diagnostic.logEntry (d : Diagnostic) : LogEntry :=
  { level := match d.severity with
      | .warning => .warning
      | .error => .error
    channel := .passes
    text := d.message }

end PinRing
