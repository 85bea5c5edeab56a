import PinRing.CommandLine.Arguments
import PinRing.File.Result
import PinRing.File.Settings
import PinRing.Placement.Review
import PinRing.Settings.Run

/-! What the commands do with the files they are given: the lines they print, the log, and the file
that is to be written. -/

namespace PinRing.CommandLine

/-- A cause that no command reports by itself. -/
inductive Escape where
  | fault (f : Fault)
  /-- A setting of the wrong kind. -/
  | wrongType
  /-- A number that is infinite or past the range of its kind. -/
  | outOfRange
  /-- A file with a fault that is not reported. -/
  | file (f : FileFault)

def Escape.message : Escape → String
  | fault .incomparable => "a bound of the core is of the wrong kind"
  | fault f => f.message?.getD "index out of range"
  | wrongType => "a setting has a value of the wrong kind"
  | outOfRange => ReadFault.infinite.message
  | file f => f.message

inductive Ending where
  | exit (status : Nat)
  /-- A file is to be written first; if that succeeds, one more text is printed.  Where a number
  in it has too many digits to be written, the file is left empty and the command breaks off. -/
  | save (path : String) (text? : Option String) (closing : String) (status : Nat)
  | escape (e : Escape)

/-- What a command printed and logged by its end. -/
structure Execution where
  output : String := ""
  log : List LogEntry := []
  ending : Ending

/-- Lines as they are printed. -/
def printed (lines : List String) : String :=
  String.join (lines.map (· ++ "\n"))

def failure (message : String) : Execution :=
  { output := printed [s!"Error: {message}"], ending := .exit 1 }

/-- Puts text and log in front. -/
def Execution.after (e : Execution) (output : String) (log : List LogEntry) : Execution :=
  { e with output := output ++ e.output, log := log ++ e.log }

/-- What a refused setting leads to. -/
def settingsFailure : SettingsFileFault → Execution
  | .unreadable (.document (.malformed stage)) =>
    { ending := .escape (.file (.document (.malformed stage))) }
  | .unreadable (.document .overflow) => { ending := .escape .outOfRange }
  | f =>
    match f.message? with
    | some message => failure message
    | none => { ending := .escape .wrongType }

/-- What a refused problem leads to; `reportsValues` tells whether a bad value in the file is
reported. -/
def problemFailure (reportsValues : Bool) : ProblemFault → Execution
  | .outOfRange => { ending := .escape .outOfRange }
  | .badValue f => if reportsValues then failure f.message else { ending := .escape (.file f) }
  | f => failure f.message

/-- The settings for a run: those of the file, if one is named, under those of the command line. -/
def PlaceArguments.settings (args : PlaceArguments) (format : TextFormat)
    (files : String → FileContent) : Except SettingsFileFault Settings := do
  let named := args.config.filter (!·.isEmpty)
  let base ← match named with
    | some path => Settings.load format path (files path)
    | none => pure {}
  let sized := match args.sectionSize with
    | some size => { base with sectionSize := size }
    | none => base
  let final :=
    if args.lenientMirroring then { sized with strictMirroring := .bool false } else sized
  final.validate.mapError .settings

def blockedSlots (problem : Problem) : List Nat :=
  problem.board.boundary.indicesOf (·.blocked)

/-- Where the result of a placement goes: to the file that is named, or beside the problem. -/
def PlaceArguments.outputPath (args : PlaceArguments) : String :=
  match args.output.filter (!·.isEmpty) with
  | some path => Path.plain path
  | none => Path.withEnding args.problem ".placed.yaml"

/-- The lines about errors found in the review of a placement. -/
def errorLines (issues : List Issue) : List String :=
  (issues.filter (·.severity = .error)).map fun i => s!"  Error [{i.topic.name}]: {i.message}"

/-- The end of a placement whose report is at hand. -/
def concludePlace (args : PlaceArguments) (format : TextFormat) (problem : Problem) (board : Board)
    (report : Report) : Execution :=
  let lines := report.summary :: report.warnings.map fun d => s!"  Warning: {d.message}"
  match review board (some problem.core.reflection) (blockedSlots problem) with
  | .error f => { output := printed lines, ending := .escape (.fault f) }
  | .ok issues =>
    let output := printed (lines ++ errorLines issues)
    let status := if report.success && passes issues then 0 else 1
    if args.dryRun then
      { output := output ++ printed ["\nDry run - not saving result"], ending := .exit status }
    else
      let path := args.outputPath
      { output
        ending := .save path (ResultFile.text? format board.pins report)
          (printed [s!"\nSaved result to: {path}"]) status }

/-- Places the pins of a problem file. -/
def place (args : PlaceArguments) (format : TextFormat) (files : String → FileContent) :
    Execution :=
  match args.settings format files with
  | .error f => settingsFailure f
  | .ok settings =>
    match Problem.load format args.problem (files (Path.plain args.problem)) with
    | .error f => problemFailure true f
    | .ok problem =>
      let board := problem.board
      let intro := printed
        [s!"Loaded problem: {args.problem}", s!"  Slots:  {board.boundary.size}",
         s!"  Pins:   {board.pins.size}", s!"  Groups: {board.pins.groups.length}",
         "\nAssigning pins to slots..."]
      let loaded := [Problem.loadedLog (Path.plain args.problem) problem]
      let rest : Execution :=
        match settings.run problem.board problem.model (some problem.core.reflection) with
        | .error _ => { ending := .escape .wrongType }
        | .ok o =>
          let ended : Execution :=
            match o.answer with
            | .error f => { ending := .escape (.fault f) }
            | .ok (.mirrorsFailed failures _) =>
              failure ((Fault.unplacedMirrors failures).message?.getD "")
            | .ok (.placed report) => concludePlace args format problem o.state.1 report
          ended.after "" o.log
      rest.after intro loaded

def issueLine (i : Issue) : String :=
  let severity := match i.severity with
    | .warning => "WARNING"
    | .error => "ERROR"
  s!"  {severity} [{i.topic.name}] {i.subject}: {i.message}"

/-- The report of a check of the result under `path`. -/
def concludeCheck (path : String) (problem : Problem) (board : Board) : Execution :=
  match review board (some problem.core.reflection) (blockedSlots problem) with
  | .error f => { ending := .escape (.fault f) }
  | .ok issues =>
    let errors := (issues.filter (·.severity = .error)).length
    let warnings := (issues.filter (·.severity = .warning)).length
    { output := printed
        (s!"Checked {path}: {errors} errors, {warnings} warnings" :: issues.map issueLine)
      ending := .exit (if passes issues then 0 else 1) }

/-- What a refused result leads to. -/
def resultFailure : ResultFault → Execution
  | .outOfRange => { ending := .escape .outOfRange }
  | .unwritable => { ending := .escape (.fault .unwritable) }
  | f => failure f.message

/-- Checks a stored result against its problem. -/
def check (args : CheckArguments) (format : TextFormat) (files : String → FileContent) :
    Execution :=
  match Problem.load format args.problem (files (Path.plain args.problem)) with
  | .error f => problemFailure false f
  | .ok problem =>
    let loaded := [Problem.loadedLog (Path.plain args.problem) problem]
    let rest : Execution :=
      match args.result with
      | none => resultFailure .noPath
      | some path =>
        match ResultFile.load format path (files path) with
        | .error f => resultFailure f
        | .ok spots =>
          match ResultFile.apply problem.board spots with
          | (_, .error f) => resultFailure f
          | (board, .ok _) => concludeCheck path problem board
    rest.after "" loaded

namespace Command

def execute (c : Command) (format : TextFormat) (files : String → FileContent) : Execution :=
  match c with
  | .place args => CommandLine.place args format files
  | .check args => CommandLine.check args format files

def inputs : Command → List String
  | .place args => Path.plain args.problem :: (args.config.filter (!·.isEmpty)).toList
  | .check args => Path.plain args.problem :: args.result.toList

/-- The least urgent log entries that are shown. -/
def logLevel (c : Command) : Level :=
  let verbose := match c with
    | .place args => args.verbose
    | .check args => args.verbose
  if verbose then .debug else .info

end Command

def versionLine : String := "ioplacer 0.1.0"

def usage : String :=
  "\n".intercalate
    ["usage: ioplacer [-h] [--version] place|check ...",
     "  place PROBLEM [-o OUTPUT] [--config CONFIG] [--slots-per-section N]",
     "        [--lenient-mirroring] [-v] [--dry-run]",
     "  check PROBLEM RESULT [-v]"]

end PinRing.CommandLine
