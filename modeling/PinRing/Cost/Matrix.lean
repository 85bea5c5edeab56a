import PinRing.Assignment.Basic
import PinRing.Board.Section
import PinRing.Cost.Model
import PinRing.Outcome

/-! Cost matrices of one section.  A row stands for a slot, or for a block of slots when groups are
placed, and a column for a pin or a group.  The matrix remembers which slot each row begins at. -/

namespace PinRing

/-- A matrix of costs with the meaning of its rows and columns. -/
structure CostMatrix where
  cells : List (List Cost) := []
  /-- The first slot of each row. -/
  rowSlots : List Nat := []
  /-- The pin, or the position of the group, of each column. -/
  columns : List Nat := []
  /-- The number of slots of a row. -/
  blockSize : Int := 1

namespace CostMatrix

def rows (m : CostMatrix) : Nat := m.cells.length

def cols (m : CostMatrix) : Nat := m.columns.length

/-- There is nothing to match. -/
def empty (m : CostMatrix) : Bool := m.rows == 0 || m.cols == 0

/-- The weights that the assignment solver works on. -/
def weights (m : CostMatrix) : Weights :=
  m.cells.map (·.map Cost.weight)

def cell (m : CostMatrix) (row col : Nat) : Except Fault Cost :=
  match m.cells[row]?.bind (·[col]?) with
  | some c => .ok c
  | none => .error .outOfRange

/-- The slot at which a row begins. -/
def rowSlot (m : CostMatrix) (row : Nat) : Except Fault Nat :=
  match m.rowSlots[row]? with
  | some s => .ok s
  | none => .error .outOfRange

end CostMatrix

/-- Which pins and slots of a section stay out of its matrix. -/
structure PinFilter where
  skipPlaced : Bool := false
  skipMirrored : Bool := false
  /-- Slots held back for groups. -/
  reserved : List Nat := []

/-- Whether a pin competes for the slots of its section. -/
def PinFilter.admits (f : PinFilter) (pins : PinTable) (p : Pin) : Bool :=
  !p.grouped && !(f.skipPlaced && p.placed) && !(f.skipMirrored && pins.isMirrored p.name)

namespace Section

/-- The pins of a section that the filter admits, in order. -/
def openPins (pins : PinTable) (f : PinFilter) : List Nat → Except Fault (List Nat)
  | [] => .ok []
  | i :: rest => do
    let p ← pins.pin i
    let others ← openPins pins f rest
    return if f.admits pins p then i :: others else others

/-- The costs of `columns` at the position of one slot. -/
def slotRow (b : Boundary) (model : CostModel) (columns : List Nat) (slot : Nat) :
    Except Fault (List Cost) := do
  let s ← b.slot slot
  columns.mapM (model · s.pos)

/-- The matrix of the section's available slots by its ungrouped pins. -/
def pinMatrix (s : Section) (b : Boundary) (pins : PinTable) (model : CostModel) (f : PinFilter) :
    Except Fault CostMatrix := do
  let columns ← openPins pins f s.pins
  let rowSlots := (b.free s.first s.stop).filter (!f.reserved.contains ·)
  if rowSlots.isEmpty || columns.isEmpty then
    return { columns }
  let cells ← rowSlots.mapM (slotRow b model columns)
  return { cells, rowSlots, columns }

/-- Whether the `size` slots from `start` on are all available; the first that is not ends the
look. -/
def blockFree (b : Boundary) (start : Nat) : Nat → Except Fault Bool
  | 0 => .ok true
  | size + 1 => do
    let s ← b.slot start
    if s.available then blockFree b (start + 1) size else return false

/-- The starts, among those given, of the blocks whose slots are all available. -/
def freeStarts (b : Boundary) (size : Nat) : List Nat → Except Fault (List Nat)
  | [] => .ok []
  | start :: rest => do
    let ok ← blockFree b start size
    let others ← freeStarts b size rest
    return if ok then start :: others else others

/-- The starts of the available blocks of `size` slots.  Blocks lie side by side from the start of
the section and end inside it; blocks of no slots do not exist. -/
def candidateStarts (s : Section) (b : Boundary) (size : Nat) : Except Fault (List Nat) :=
  freeStarts b size ((List.range ((s.stop - s.first) / size)).map (s.first + · * size))

/-- The costs of all groups at the first slot of one block. -/
def blockRow (s : Section) (b : Boundary) (model : CostModel) (start : Nat) :
    Except Fault (List Cost) := do
  let slot ← b.slot start
  s.groups.mapM fun g => model.groupCost g.members slot.pos

/-- The matrix of the section's available blocks by its groups.  A group is priced at the first slot
of a block. -/
def groupMatrix (s : Section) (b : Boundary) (model : CostModel) (size : Int) :
    Except Fault CostMatrix := do
  let columns := List.range s.groups.length
  let rowSlots ← s.candidateStarts b size.toNat
  if rowSlots.isEmpty || columns.isEmpty then
    return { columns, blockSize := size }
  let cells ← rowSlots.mapM (s.blockRow b model)
  return { cells, rowSlots, columns, blockSize := size }

/-- The report on a pin matrix; an empty one goes unreported. -/
def pinMatrixLog (s : Section) (m : CostMatrix) : List LogEntry :=
  if m.rows = 0 then []
  else [⟨.debug, .matrices, s!"Pin matrix for {s.text}: {m.rows} x {m.cols}"⟩]

/-- The report on a group matrix; an empty one goes unreported. -/
def groupMatrixLog (s : Section) (m : CostMatrix) : List LogEntry :=
  if m.rows = 0 then []
  else
    [⟨.debug, .matrices,
      s!"Group matrix for {s.text}: {m.rows} blocks of {m.blockSize} x {m.cols} groups"⟩]

end Section

end PinRing
