import PinRing.Assignment.Basic
import PinRing.Cost.Matrix
import PinRing.Geometry.Outline
import PinRing.Placement.Pass

/-! The pass that puts the pins of a solved matrix on slots.  It has two phases: every placement is
planned and checked first, the partner of a mirrored pin included, and only then is the plan
committed.  A pair whose partner has no slot is left out whole. -/

namespace PinRing.PinPass

/-- How a pass treats mirrored pins. -/
structure Mode where
  /-- Only mirrored pins are placed, each together with its partner. -/
  mirrored : Bool := false
  /-- A pair that cannot be placed is a fault. -/
  strict : Bool := true
  reflection : Option Reflection := none

/-- What the commits of a pass belong to. -/
def Mode.origin (m : Mode) : Origin := if m.mirrored then .pair else .single

/-- What is to be committed, and what was found while planning it. -/
structure Plan where
  commits : List Commit := []
  diagnostics : List Diagnostic := []
  failures : List MirrorFailure := []
  cost : Int := 0

namespace Plan

def hasPin (p : Plan) (pin : Nat) : Bool := p.commits.any (·.pin == pin)

def hasSlot (p : Plan) (slot : Nat) : Bool := p.commits.any (·.slot == slot)

end Plan

/-- The slot for the partner of a pin that goes to `slot`, or the reason why there is none. -/
def partnerSlot (board : Board) (reflection : Option Reflection) (plan : Plan)
    (partner slot : Nat) : Except Fault (Except String Nat) := do
  let some reflect := reflection | throw .reflectionMissing
  if (← board.pins.pin partner).placed || plan.hasPin partner then
    return .error "partner already placed"
  let s ← board.boundary.slot slot
  let image ← reflect s.pos
  match image.point?.bind (board.boundary.slotAt? · s.layer) with
  | none =>
    let position ← written image.text?
    let layer ← written (Text.decimal? s.layer)
    return .error (s!"mirrored position {position} at layer {layer} " ++
      "is not a valid position for pin placement")
  | some other =>
    if other == slot || plan.hasSlot other || !board.boundary.isAvailable other then
      return .error s!"mirrored slot {other} is already occupied"
    return .ok other

/-- Adds a pin, and its partner if it takes one along, to the plan.  Where the cost is infeasible
the pin is placed with a warning. -/
def Plan.add (plan : Plan) (name : String) (commits : List Commit) (cost : Cost) : Plan :=
  match cost with
  | .finite v => { plan with commits := plan.commits ++ commits, cost := plan.cost + v }
  | .infeasible =>
    { plan with
      commits := plan.commits ++ commits
      diagnostics := plan.diagnostics ++ [⟨.warning, insufficientSpace name, name⟩] }

/-- Plans the pin of one column: it is skipped without a row, when it is placed, when it is not
mirrored while mirrored pins are placed, and when its slot is taken. -/
def planColumn (board : Board) (matrix : CostMatrix) (assignment : Assignment) (mode : Mode)
    (plan : Plan) (column : Nat × Nat) : Outcome Plan Unit :=
  let (col, pin) := column
  (Outcome.lift plan (board.pins.pin pin)).andThen fun _ p =>
  match assignment.rowOf? col with
  | none => (Outcome.done plan ()).report ⟨.debug, .passes, s!"Pin {p.name} received no slot"⟩
  | some row =>
    (Outcome.lift plan (board.pins.partner pin)).andThen fun _ partner? =>
    if p.placed || plan.hasPin pin || (mode.mirrored && partner?.isNone) then
      .done plan ()
    else
    (Outcome.lift plan (matrix.rowSlot row)).andThen fun _ slot =>
    (Outcome.lift plan (board.boundary.slot slot)).andThen fun _ s =>
    if plan.hasSlot slot || !s.available then
      (Outcome.done plan ()).report
        ⟨.debug, .passes, s!"Slot {slot} for pin {p.name} was taken by a mirror partner"⟩
    else
    let commit (commits : List Commit) : Outcome Plan Unit :=
      (Outcome.lift plan (matrix.cell row col)).andThen fun _ cost =>
      let next := plan.add p.name commits cost
      let log := (next.diagnostics.drop plan.diagnostics.length).map Diagnostic.logEntry
      { state := next, log, answer := .ok () }
    match mode.mirrored, partner? with
    | true, some partner =>
      (Outcome.lift plan (partnerSlot board mode.reflection plan partner slot)).andThen
        fun _ found =>
      match found with
      | .error reason =>
        (Outcome.lift plan (board.pins.pin partner)).andThen fun _ q =>
        .done { plan with failures := plan.failures ++ [⟨p.name, q.name, reason⟩] } ()
      | .ok other => commit [⟨pin, slot, mode.origin⟩, ⟨partner, other, mode.origin⟩]
    | _, _ => commit [⟨pin, slot, mode.origin⟩]

/-- The plan for all columns of a matrix, in order. -/
def plan (board : Board) (matrix : CostMatrix) (assignment : Assignment) (mode : Mode) :
    Outcome Plan Unit :=
  Outcome.forEach (planColumn board matrix assignment mode) {}
    (matrix.columns.zipIdx.map fun (pin, col) => (col, pin))

/-- The error about a mirror pair that could not be placed. -/
def failureDiagnostic (f : MirrorFailure) : Diagnostic :=
  { severity := .error
    message := s!"Mirrored pin {f.partner} of {f.pin} cannot be placed: {f.reason}"
    subject := f.pin }

/-- Commits a plan and reports its failures, which are a fault in strict mode. -/
def carryOut (board : Board) (mode : Mode) (plan : Plan) : Outcome Board PassResult :=
  (Outcome.forEach Board.commit board plan.commits).andThen fun board _ =>
  let errors := plan.failures.map failureDiagnostic
  { state := board
    log := errors.map Diagnostic.logEntry
    answer :=
      if mode.strict && !plan.failures.isEmpty then
        .error (.unplacedMirrors plan.failures)
      else
        .ok
          { commits := plan.commits
            diagnostics := plan.diagnostics ++ errors
            failures := plan.failures
            cost := plan.cost } }

/-- Places the pins of a matrix as an assignment says. -/
def run (board : Board) (matrix : CostMatrix) (assignment : Assignment) (mode : Mode) :
    Outcome Board PassResult :=
  if matrix.empty then
    .done board {}
  else
    let planned := plan board matrix assignment mode
    match planned.answer with
    | .error f => { state := board, log := planned.log, answer := .error f }
    | .ok _ =>
      let done := carryOut board mode planned.state
      { done with log := planned.log ++ done.log }

end PinRing.PinPass
