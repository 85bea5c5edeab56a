/-! What an operation reports while it works: leveled lines from named channels. -/

namespace PinRing

/-- How urgent a log entry is. -/
inductive Level where
  | debug
  | info
  | warning
  | error
deriving DecidableEq

def Level.name : Level → String
  | debug => "DEBUG"
  | info => "INFO"
  | warning => "WARNING"
  | error => "ERROR"

/-- Levels from the least to the most urgent. -/
def Level.rank : Level → Nat
  | debug => 0
  | info => 1
  | warning => 2
  | error => 3

/-- The part of the program that reports. -/
inductive Channel where
  | matrices
  | passes
  | matchings
  | runs
  | problems
deriving DecidableEq

def Channel.name : Channel → String
  | matrices => "ioplacer.matching.matrix_builder"
  | passes => "ioplacer.matching.materializer"
  | matchings => "ioplacer.matching.matcher"
  | runs => "ioplacer.placer"
  | problems => "ioplacer.problem"

/-- One line of the log. -/
structure LogEntry where
  level : Level
  channel : Channel
  text : String
deriving DecidableEq

/-- The line of a log entry, such as `INFO ioplacer.placer: Placed 5 pins`. -/
def LogEntry.line (e : LogEntry) : String :=
  s!"{e.level.name} {e.channel.name}: {e.text}"

/-- The lines of the entries that are at least as urgent as `least`, in order. -/
def logLines (least : Level) (log : List LogEntry) : List String :=
  (log.filter (least.rank ≤ ·.level.rank)).map LogEntry.line

end PinRing
