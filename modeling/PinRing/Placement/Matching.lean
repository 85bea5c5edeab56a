import PinRing.Assignment.Solve
import PinRing.Placement.GroupPass
import PinRing.Placement.PinPass

/-! The placement of one section in steps: build a matrix and solve it, then commit the assignment.
Pins and groups are matched apart.  Before the pins are matched, slots can be held back for the
groups. -/

namespace PinRing

/-- A section with the matrix and assignment that were worked out for it last. -/
structure Matching where
  sec : Section
  model : CostModel
  reflection : Option Reflection := none
  /-- A mirror pair that cannot be placed is a fault. -/
  strict : Bool := true
  /-- The number of slots set aside for each group, fixed from the start. -/
  blockSize : Nat
  matrix : CostMatrix := {}
  assignment : Assignment := []
  /-- Slots held back for the groups, in order. -/
  reserved : List Nat := []

namespace Matching

/-- A matching with nothing worked out yet. -/
def ofSection (sec : Section) (model : CostModel) (reflection : Option Reflection) (strict : Bool) :
    Matching :=
  { sec, model, reflection, strict, blockSize := sec.blockSize }

/-- The assignment of a matrix; an empty matrix assigns nothing. -/
def solved (m : CostMatrix) : Except Fault Assignment :=
  if m.empty then .ok [] else m.weights.solve

/-- Takes over a matrix and its assignment.  If the matrix could not be built, nothing changes. -/
def adopt (m : Matching) (built : Except Fault CostMatrix) (log : CostMatrix → List LogEntry) :
    Outcome Matching Unit :=
  match built with
  | .error f => .stop m f
  | .ok matrix =>
    match solved matrix with
    | .error f => { state := { m with matrix }, log := log matrix, answer := .error f }
    | .ok assignment =>
      { state := { m with matrix, assignment }, log := log matrix, answer := .ok () }

/-- Matches the section's unplaced pins with its available slots, the reserved ones apart.  Mirrored
pins take part in the mirrored pass only. -/
def findPins (m : Matching) (board : Board) (mirrored : Bool) : Outcome Matching Unit :=
  m.adopt
    (m.sec.pinMatrix board.boundary board.pins m.model
      { skipPlaced := true, skipMirrored := !mirrored, reserved := m.reserved })
    m.sec.pinMatrixLog

/-- Commits the pins as they were matched last. -/
def commitPins (m : Matching) (board : Board) (mirrored : Bool) : Outcome Board PassResult :=
  (PinPass.run board m.matrix m.assignment
    { mirrored, strict := m.strict, reflection := m.reflection }).andThen fun board result =>
  let pass := if mirrored then " (mirrored pass)" else ""
  (Outcome.done board result).report
    ⟨.debug, .matchings, s!"{m.sec.text}: placed {result.commits.length} pins{pass}"⟩

/-- The group matrix of the section as the board stands. -/
def groupMatrix (m : Matching) (board : Board) : Except Fault CostMatrix :=
  m.sec.groupMatrix board.boundary m.model m.blockSize

/-- The slots of the blocks that an assignment gives to groups, in order. -/
def blockSlots (rowSlots : List Nat) (size : Nat) (a : Assignment) : List Nat :=
  ((rowSlots.zip a).filter (·.2.isSome)).flatMap fun (start, _) => List.range' start size

/-- Holds back the blocks that the groups would take if they were placed now. -/
def reserveBlocks (m : Matching) (board : Board) : Outcome Matching Unit :=
  match m.groupMatrix board with
  | .error f => .stop { m with reserved := [] } f
  | .ok matrix =>
    if matrix.empty then
      .done { m with reserved := [] } ()
    else
      match solved matrix with
      | .error f => .stop { m with reserved := [] } f
      | .ok a =>
        let reserved := blockSlots matrix.rowSlots m.blockSize a
        { state := { m with reserved }
          log := m.sec.groupMatrixLog matrix ++ [⟨.debug, .matchings,
            s!"{m.sec.text}: reserved {reserved.length} slots for pin groups"⟩]
          answer := .ok () }

/-- Matches the section's groups with its available blocks. -/
def findGroups (m : Matching) (board : Board) : Outcome Matching Unit :=
  m.adopt (m.groupMatrix board) m.sec.groupMatrixLog

/-- The warning when groups found no available block at all. -/
def noBlockLog (m : Matching) : List LogEntry :=
  if m.matrix.empty && !m.sec.groups.isEmpty then
    [⟨.warning, .matchings, s!"{m.sec.text}: no free block of {m.blockSize} slots " ++
      s!"for {m.sec.groups.length} pin group(s)"⟩]
  else
    []

/-- Commits the groups as they were matched last, then forgets the matrix, the assignment and the
reserved slots. -/
def commitGroups (m : Matching) (board : Board) : Outcome (Matching × Board) PassResult :=
  ((GroupPass.run board m.sec m.matrix m.assignment m.blockSize).mapState fun (board, sec) =>
    ({ m with sec }, board)).andThen fun (m, board) result =>
  { state := ({ m with matrix := {}, assignment := [], reserved := [] }, board)
    log := m.noBlockLog
    answer := .ok result }

end Matching

end PinRing
