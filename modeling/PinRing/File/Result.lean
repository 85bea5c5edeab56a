import PinRing.File.Problem
import PinRing.Placement.Report

/-! Result files: the places of the pins with the diagnostics of the run, and their replay on a
freshly loaded problem. -/

namespace PinRing

/-- A stored place of a pin; the name is as it stands in the file. -/
structure StoredSpot where
  name : Value
  spot : Spot

/-- Why a result is refused. -/
inductive ResultFault where
  | unreadable (path : String) (f : FileFault)
  | badEntry (path : String) (f : ReadFault)
  /-- A number that is infinite or past the range of its kind. -/
  | outOfRange
  | unknownPin (name : String)
  /-- The name of an unknown pin has too many digits to be written. -/
  | unwritable
  /-- No path is given. -/
  | noPath
deriving DecidableEq

def ResultFault.message : ResultFault → String
  | unreadable path f => s!"Cannot read result file {path}: {f.message}"
  | badEntry path f => s!"Cannot read result file {path}: {f.message}"
  | outOfRange => ReadFault.infinite.message
  | unknownPin name => s!"Result references unknown pin '{name}'"
  | unwritable => ReadFault.unwritable.message
  | noPath => "Cannot read result file []: " ++ ReadFault.wrongType.message

namespace ResultFile

/-- The places of the placed pins, in table order. -/
def spots (pins : PinTable) : List (String × Spot) :=
  pins.pins.toList.filterMap fun p => p.spot.map fun s => (p.name, s)

/-- The document of one place. -/
def spotValue (s : Spot) : Value :=
  .mapping [(.text "x", .int s.pos.x), (.text "y", .int s.pos.y), (.text "layer", .int s.layer)]

def messages (ds : List Diagnostic) : Value :=
  .list (ds.map fun d => .text d.message)

def toValue (pins : PinTable) (r : Report) : Value :=
  .mapping
    [(.text "version", .int ProblemFault.supportedVersion),
     (.text "pins", .mapping ((spots pins).map fun (name, s) => (.text name, spotValue s))),
     (.text "total_cost", .int r.totalCost),
     (.text "unplaced", .list (r.unplaced.map .text)),
     (.text "warnings", messages r.warnings),
     (.text "errors", messages r.errors)]

/-- The text of a result file, if all its numbers can be written. -/
def text? (format : TextFormat) (pins : PinTable) (r : Report) : Option String :=
  let v := toValue pins r
  if v.writable then some (format.write v) else none

/-- The entries of a mapping, where any other value lacks them. -/
def entriesOf : Value → Except ReadFault (List (Value × Value))
  | .mapping entries => .ok entries
  | _ => .error .noEntries

def readSpot (name v : Value) : Except ReadFault StoredSpot := do
  let entries ← v.entries
  let x ← (← Value.entry entries "x").toInt
  let y ← (← Value.entry entries "y").toInt
  let layer ← (← Value.entry entries "layer").toInt
  return { name, spot := ⟨⟨x, y⟩, layer⟩ }

/-- The places that a document stores.  A document or list of places that does not count as given
stores none. -/
def ofValue (v : Value) : Except ReadFault (List StoredSpot) := do
  if !v.truthy then return []
  let pins := (Value.lookup "pins" (← entriesOf v)).getD .null
  if !pins.truthy then return []
  (← entriesOf pins).mapM fun (name, v) => readSpot name v

def load (format : TextFormat) (path : String) (content : FileContent) :
    Except ResultFault (List StoredSpot) :=
  match content.read format path with
  | .error (.document .overflow) => .error .outOfRange
  | .error f => .error (.unreadable path f)
  | .ok v =>
    match ofValue v with
    | .ok spots => .ok spots
    | .error .infinite => .error .outOfRange
    | .error f => .error (.badEntry path f)

/-- Puts a pin on a stored place and marks the first slot there as used. -/
def replay (board : Board) (pin : Nat) (spot : Spot) : Board :=
  let board := board.placeAt pin spot
  match board.boundary.slotAt? spot.pos spot.layer with
  | none => board
  | some slot => { board with boundary := board.boundary.use slot }

/-- Replays stored places in order, up to the first unknown pin. -/
def apply (board : Board) : List StoredSpot → Board × Except ResultFault Unit
  | [] => (board, .ok ())
  | s :: rest =>
    let index := match s.name with
      | .text name => board.pins.indexOf? name
      | _ => none
    match index, s.name.asText? with
    | none, none => (board, .error .unwritable)
    | none, some name => (board, .error (.unknownPin name))
    | some pin, _ => apply (replay board pin s.spot) rest

end ResultFile

end PinRing
