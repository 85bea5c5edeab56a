import PinRing.CommandLine.Options
import PinRing.Document.Convert

/-! The commands of the program: placing the pins of a problem, and checking a stored result against
its problem. -/

namespace PinRing.CommandLine

structure PlaceArguments where
  problem : String
  output : Option String := none
  config : Option String := none
  /-- The number of slots of a section; an empty list if the option gives no value. -/
  sectionSize : Option Value := none
  lenientMirroring : Bool := false
  verbose : Bool := false
  dryRun : Bool := false

structure CheckArguments where
  problem : String
  /-- The path of the result; none if its place holds no value. -/
  result : Option String
  verbose : Bool := false

/-- What the program can do. -/
inductive Command where
  | place (args : PlaceArguments)
  | check (args : CheckArguments)

/-- What a command line asks for. -/
inductive Request where
  | run (command : Command)
  /-- How to use the program. -/
  | help
  | version
  /-- Nothing, which is answered by how to use the program. -/
  | nothing
  /-- A command line that makes no sense. -/
  | misuse

/-- The options of all commands. -/
inductive OptionId where
  | help
  | version
  | output
  | config
  | sectionSize
  | lenientMirroring
  | verbose
  | dryRun
deriving DecidableEq

/-- The option that asks for help. -/
def helpForm : OptionForm OptionId := { id := .help, short := 'h', long := "help" }

/-- The option for a full log. -/
def verboseForm : OptionForm OptionId := { id := .verbose, short := 'v', long := "verbose" }

def mainForms : List (OptionForm OptionId) :=
  [helpForm, { id := .version, long := "version" }]

def placeForms : List (OptionForm OptionId) :=
  [helpForm,
   { id := .output, short := 'o', long := "output", takesValue := true },
   { id := .config, long := "config", takesValue := true },
   { id := .sectionSize, long := "slots-per-section", takesValue := true },
   { id := .lenientMirroring, long := "lenient-mirroring" },
   verboseForm,
   { id := .dryRun, long := "dry-run" }]

def checkForms : List (OptionForm OptionId) := [helpForm, verboseForm]

/-- Options that end the reading: those that ask for help, and a number of slots that is none. -/
def stopsAt (id : OptionId) (value : Option String) : Bool :=
  match id, value with
  | .help, _ => true
  | .version, _ => true
  | .sectionSize, some text => (valueOf? text).any fun n => (Value.intOfText n).toOption.isNone
  | _, _ => false

/-- The last text given to an option. -/
def Reading.text? (r : Reading OptionId) (id : OptionId) : Option String :=
  (r.options.reverse.find? (·.1 == id)).bind (·.2)

/-- The last value of an option. -/
def Reading.value? (r : Reading OptionId) (id : OptionId) : Option String :=
  (r.text? id).bind valueOf?

def Reading.has (r : Reading OptionId) (id : OptionId) : Bool :=
  r.options.any (·.1 == id)

/-- The request that a reading stopped at an option amounts to. -/
def stopped : OptionId → Request
  | .help => .help
  | .version => .version
  | _ => .misuse

def readCommand (forms : List (OptionForm OptionId)) (count : Nat) (args : List String)
    (build : Reading OptionId → Option Command) (leftOver : Bool) : Request :=
  match classifyAll forms args with
  | .error _ => .misuse
  | .ok arguments =>
    match readArguments stopsAt count {} .nothing arguments with
    | .error _ => .misuse
    | .ok (_, some id) => stopped id
    | .ok (reading, none) =>
      if reading.leftOver || leftOver then .misuse
      else
        match build reading with
        | some command => .run command
        | none => .misuse

/-- The number of slots that a text gives. -/
def sectionSizeOf (text : String) : Value :=
  match (valueOf? text).bind fun n => (Value.intOfText n).toOption with
  | some n => .int n
  | none => .list []

/-- The place command of a reading with all its words. -/
def placeCommand (r : Reading OptionId) : Option Command :=
  match r.words with
  | [some problem] =>
    some (.place {
      problem
      output := r.value? .output
      config := r.value? .config
      sectionSize := (r.text? .sectionSize).map sectionSizeOf
      lenientMirroring := r.has .lenientMirroring
      verbose := r.has .verbose
      dryRun := r.has .dryRun })
  | _ => none

/-- The check command of a reading with all its words. -/
def checkCommand (r : Reading OptionId) : Option Command :=
  match r.words with
  | [some problem, result] => some (.check { problem, result, verbose := r.has .verbose })
  | _ => none

/-- Reads the options in front of the command, then the command with everything after it. -/
def readMain (leftOver : Bool) : List String → List (Argument OptionId) → Request
  | args, .word name :: _ =>
    if name = "place" then readCommand placeForms 1 (args.drop 1) placeCommand leftOver
    else if name = "check" then readCommand checkForms 2 (args.drop 1) checkCommand leftOver
    else .misuse
  | args, .unknown :: rest => readMain true (args.drop 1) rest
  | _, .options (.error _) :: _ => .misuse
  | _, .options (.ok given) :: _ =>
    match stop? stopsAt given with
    | some id => stopped id
    | none => .misuse
  | _, .separator :: _ => .misuse
  | _, [] => if leftOver then .misuse else .nothing

/-- What a command line asks for. -/
def request (args : List String) : Request :=
  match classifyAll mainForms args with
  | .error _ => .misuse
  | .ok arguments => readMain false args arguments

end PinRing.CommandLine
