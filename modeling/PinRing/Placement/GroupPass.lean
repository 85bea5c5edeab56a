import PinRing.Assignment.Basic
import PinRing.Cost.Matrix
import PinRing.Placement.Pass

/-! The pass that puts the groups of a solved matrix on blocks of slots.  The members of a group
fill consecutive slots from the start of its block, and every slot taken is both used and
blocked. -/

namespace PinRing.GroupPass

/-- The state of a pass under way. -/
structure Progress where
  board : Board
  sec : Section
  result : PassResult := {}

/-- Ordered groups run against the slot order on these edges. -/
def runsBackward (edge : Edge) : Bool :=
  edge = .top || edge = .left

/-- The commits of a group whose block starts at `start`. -/
def layout (g : PinGroup) (edge : Edge) (start : Nat) : List Commit :=
  g.members.zipIdx.map fun (pin, k) =>
    ⟨pin, start + if g.ordered && runsBackward edge then g.size - 1 - k else k, .group⟩

/-- Puts one member on its slot, takes the slot out of use, and takes it off the section's room. -/
def commitMember (p : Progress) (c : Commit) : Outcome Progress Unit :=
  ((p.board.commit c).mapState fun board => { p with board }).andThen fun p _ =>
  let room := if c.slot < p.sec.stop then p.sec.room - 1 else p.sec.room
  .done
    { board := p.board.block c.slot
      sec := { p.sec with room }
      result := { p.result with commits := p.result.commits ++ [c] } } ()

def warn (p : Progress) (message subject : String) : Outcome Progress Unit :=
  let d : Diagnostic := ⟨.warning, message, subject⟩
  (Outcome.done { p with result := p.result.diagnose d } ()).report d.logEntry

/-- Places the group of one column.  A group without a row is left out with a warning; one whose
cost is infeasible is placed with a warning. -/
def placeGroup (matrix : CostMatrix) (assignment : Assignment) (p : Progress)
    (column : PinGroup × Nat) : Outcome Progress Unit :=
  let (g, col) := column
  match assignment.rowOf? col with
  | none => warn p s!"I/O pin group {g.name} received no slot block" g.name
  | some row =>
    (Outcome.lift p (matrix.rowSlot row)).andThen fun p start =>
    (Outcome.lift p (matrix.cell row col)).andThen fun p cost =>
    let priced : Outcome Progress Unit :=
      match cost with
      | .finite v => .done { p with result := { p.result with cost := p.result.cost + v } } ()
      | .infeasible => warn p (insufficientSpace g.name) g.name
    priced.andThen fun p _ => Outcome.forEach commitMember p (layout g p.sec.edge start)

/-- Places the groups of a section as an assignment of its group matrix says.  The section comes
back with its room brought up to date. -/
def run (board : Board) (sec : Section) (matrix : CostMatrix) (assignment : Assignment)
    (blockSize : Int) : Outcome (Board × Section) PassResult :=
  if matrix.empty then
    .done (board, sec) {}
  else
    let done := Outcome.forEach (placeGroup matrix assignment) { board, sec } sec.groups.zipIdx
    let state := (done.state.board, done.state.sec)
    match done.answer with
    | .error f => { state, log := done.log, answer := .error f }
    | .ok _ =>
      let result := done.state.result
      { state
        log := done.log ++ [⟨.debug, .passes,
          s!"Placed {result.commits.length} grouped pins in blocks of {blockSize}"⟩]
        answer := .ok result }

end PinRing.GroupPass
