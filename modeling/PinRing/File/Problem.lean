import PinRing.Board.Basic
import PinRing.Cost.Model
import PinRing.Document.Convert
import PinRing.File.Basic
import PinRing.File.Path
import PinRing.Geometry.Outline

/-! Problem files: the core, the slots in boundary order, the pins with their targets, regions and
mirror partners, and the pin groups. -/

namespace PinRing

structure Problem where
  core : Outline
  board : Board
  targets : TargetModel

/-- Why an entry of a problem definition is refused. -/
inductive EntryFault where
  | read (f : ReadFault)
  | pins (f : Fault)
  | unknownEdge (given : String)
  /-- A core without width or height, by its bounds as they were given. -/
  | degenerateCore (xmin ymin xmax ymax : String)
deriving DecidableEq

/-- The wording of a fault.  The name of an unknown pin is part of a quoted text. -/
def EntryFault.message : EntryFault → String
  | read f => f.message
  | pins (.unknownPin name) => Text.quoted s!"Unknown pin '{name}'"
  | pins f => f.message?.getD ""
  | unknownEdge given => s!"Unknown edge '{given}'. Expected one of: bottom, right, top, left"
  | degenerateCore xmin ymin xmax ymax => s!"Degenerate core ({xmin}, {ymin}) - ({xmax}, {ymax})"

/-- Why a problem is refused. -/
inductive ProblemFault where
  | notMapping
  /-- A version, as it is written, past the greatest that can be read. -/
  | newerVersion (version : String)
  | missing (key : String)
  | entry (f : EntryFault)
  /-- A number that is infinite or past the range of its kind. -/
  | outOfRange
  | unreadable (path : String) (f : FileFault)
  /-- A value in the path or the text of the file that does not exist. -/
  | badValue (f : FileFault)
deriving DecidableEq

namespace ProblemFault

/-- The greatest version of problem files that can be read. -/
def supportedVersion : Int := 1

def message : ProblemFault → String
  | notMapping => "Problem file must contain a mapping"
  | newerVersion version =>
    s!"Problem file version {version} is newer than supported ({supportedVersion})"
  | missing key => s!"Problem file is missing '{key}'"
  | entry f => "Invalid problem definition: " ++ f.message
  | outOfRange => ReadFault.infinite.message
  | unreadable path f => s!"Cannot read problem file {path}: {f.message}"
  | badValue f => f.message

/-- The fault of a problem for the fault of one entry. -/
def ofEntry : EntryFault → ProblemFault
  | .read .infinite => outOfRange
  | f => entry f

/-- The fault of a problem for the fault of its file. -/
def ofFile (path : String) (f : FileFault) : ProblemFault :=
  if f = .document .overflow then outOfRange
  else if f.concernsValue then badValue f
  else unreadable path f

end ProblemFault

namespace Problem

/-- The outcome of reading one entry. -/
abbrev Reading (α : Type) := Except EntryFault α

/-- A conversion as part of reading an entry. -/
def convert {α : Type} (e : Except ReadFault α) : Reading α := e.mapError .read

/-- The integer under a key that must be there. -/
def intEntry (entries : List (Value × Value)) (key : String) : Reading Int := do
  convert (← convert (Value.entry entries key)).toInt

/-- The value under a key, or another. -/
def valueOr (entries : List (Value × Value)) (key : String) (other : Value) : Value :=
  (Value.lookup key entries).getD other

/-- The core of a mapping with exactly the four bounds.  They may be values of any kind, but the
bounds of each coordinate must come in order. -/
def readCore (v : Value) : Reading Outline := do
  let entries ← convert v.entries
  match entries.length, Value.lookup "xmin" entries, Value.lookup "ymin" entries,
      Value.lookup "xmax" entries, Value.lookup "ymax" entries with
  | 4, some xmin, some ymin, some xmax, some ymax =>
    let degenerate : Reading Outline := do
      throw (.degenerateCore (← convert xmin.toText) (← convert ymin.toText)
        (← convert xmax.toText) (← convert ymax.toText))
    match hx : xmax.atMost? xmin, hy : ymax.atMost? ymin with
    | some false, some false =>
      return { xmin, ymin, xmax, ymax, x_ordered := hx, y_ordered := hy }
    | some true, _ => degenerate
    | some false, some true => degenerate
    | _, _ => throw (.read .wrongType)
  | _, _, _, _, _ => throw (.read .wrongType)

/-- The edge of a given name.  Case and blanks around the name do not matter. -/
def readEdge (v : Value) : Reading Edge := do
  let given ← convert v.toText
  let name := String.ofList ((Text.stripBy Text.isBlank given.toList).map Char.toLower)
  match Edge.ofName? name with
  | some e => return e
  | none => throw (.unknownEdge given)

/-- The edge that follows from the core. -/
def edgeAt (core : Outline) (pos : Point) : Reading Edge :=
  match core.edgeOf? pos with
  | some e => .ok e
  | none => .error (.read .wrongType)

/-- A slot.  Its edge is given or follows from the core. -/
def readSlot (core : Outline) (v : Value) : Reading Slot := do
  let entries ← convert v.entries
  let pos : Point := ⟨← intEntry entries "x", ← intEntry entries "y"⟩
  let edge ← match Value.lookup "edge" entries with
    | some given => readEdge given
    | none => edgeAt core pos
  let layer ← convert (valueOr entries "layer" (.int 0)).toInt
  return {
    pos, layer, edge
    blocked := (valueOr entries "blocked" (.bool false)).truthy
    used := (valueOr entries "used" (.bool false)).truthy }

def readTarget (v : Value) : Reading Point := do
  let (x, y) ← convert v.pair
  return ⟨← convert x.toInt, ← convert y.toInt⟩

/-- A region of four bounds. -/
def readRegion (v : Value) : Reading Region := do
  match ← (← convert v.items).mapM fun v => convert v.toInt with
  | [xmin, ymin, xmax, ymax] => return ⟨xmin, ymin, xmax, ymax⟩
  | _ => throw (.read .wrongType)

/-- What has been read of the pins. -/
structure PinSheet where
  pins : PinTable := {}
  targets : TargetModel := {}
  /-- The mirror pairs in the order in which they were declared. -/
  mirrors : List (String × String) := []

def readPin (sheet : PinSheet) (v : Value) : Reading PinSheet := do
  let entries ← convert v.entries
  let name ← convert (← convert (Value.entry entries "name")).toText
  let added := sheet.pins.addPin name
  let index ← added.answer.mapError .pins
  let target ← (Value.lookup "target" entries).mapM readTarget
  let region ← (Value.lookup "region" entries).mapM readRegion
  let partner := valueOr entries "mirror" .null
  let mirrors ← if partner.truthy then (convert partner.toText).map fun p => [(name, p)] else .ok []
  return {
    pins := added.state
    targets :=
      { sheet.targets with
        targets := sheet.targets.targets ++ (target.map fun p => (index, p)).toList
        regions := sheet.targets.regions ++ (region.map fun r => (index, r)).toList }
    mirrors := sheet.mirrors ++ mirrors }

def readGroup (pins : PinTable) (v : Value) : Reading PinTable := do
  let entries ← convert v.entries
  let members ← convert (← convert (Value.entry entries "pins")).items
  let names ← members.mapM fun v => convert v.toText
  let ordered := (valueOr entries "order" (.bool false)).truthy
  let name ← convert (valueOr entries "name" (.text "")).toText
  let added := pins.addGroup names ordered name
  let _ ← added.answer.mapError .pins
  return added.state

/-- Declares a mirror pair. -/
def readMirror (pins : PinTable) (pair : String × String) : Reading PinTable := do
  let added := pins.addMirror pair.1 pair.2
  let _ ← added.answer.mapError .pins
  return added.state

/-- The groups of a problem; a value that does not count as given holds none. -/
def groupEntries (entries : List (Value × Value)) : Reading (List Value) :=
  let groups := valueOr entries "groups" .null
  if groups.truthy then convert groups.items else .ok []

/-- A part of a problem that must be there. -/
def require (entries : List (Value × Value)) (key : String) : Except ProblemFault Value :=
  match Value.lookup key entries with
  | none => .error (.missing key)
  | some .null => .error (.missing key)
  | some v => .ok v

/-- The problem that a document describes. -/
def ofValue (v : Value) : Except ProblemFault Problem := do
  let .mapping entries := v | throw .notMapping
  let part {α : Type} (e : Reading α) : Except ProblemFault α := e.mapError .ofEntry
  let version ← part (convert (valueOr entries "version" (.int 1)).toInt)
  if version > ProblemFault.supportedVersion then
    throw (.newerVersion (← part (convert (Value.int version).toText)))
  let core ← part (readCore (← require entries "core"))
  let slots ← part ((← part (convert (← require entries "slots").items)).mapM (readSlot core))
  let sheet ← part ((← part (convert (← require entries "pins").items)).foldlM readPin {})
  let pins ← part (sheet.mirrors.foldlM readMirror sheet.pins)
  let pins ← part ((← part (groupEntries entries)).foldlM readGroup pins)
  let board : Board := { boundary := { slots := slots.toArray }, pins }
  return { core, board, targets := sheet.targets }

/-- The costs that the problem itself describes. -/
def model (p : Problem) : CostModel := p.targets.model

/-- The report on a problem that has been loaded. -/
def loadedLog (path : String) (p : Problem) : LogEntry :=
  let pins := p.board.pins
  ⟨.info, .problems, s!"Loaded {path}: {p.board.boundary.size} slots, {pins.size} pins, " ++
    s!"{pins.groups.length} groups"⟩

def load (format : TextFormat) (path : String) (content : FileContent) :
    Except ProblemFault Problem :=
  let path := Path.plain path
  match content.read format path with
  | .error f => .error (.ofFile path f)
  | .ok v => ofValue v

end Problem

end PinRing
