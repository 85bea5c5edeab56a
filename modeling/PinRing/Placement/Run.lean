import PinRing.Placement.Distribution
import PinRing.Placement.Matching
import PinRing.Placement.Report
import PinRing.Placement.Sectioning

/-! A placement run over the whole boundary.  The boundary is cut into sections and the pins are
distributed over them.  Then every section places its mirrored pins, whose partners usually land in
another section; every section holds back slots for its groups; every section places its other
pins; and every section places its groups. -/

namespace PinRing

namespace Run

/-- What the passes of a run share. -/
structure Work where
  board : Board
  report : Report
  /-- The mirror pairs that could not be placed. -/
  failures : List MirrorFailure := []

/-- Takes in the result of a pass. -/
def Work.absorb (w : Work) (result : PassResult) : Work :=
  { w with report := w.report.absorb result, failures := w.failures ++ result.failures }

/-- A step of one section's matching. -/
abbrev SectionStep := Matching → Work → Outcome (Matching × Work) Unit

/-- Takes a step in every section in turn, up to the first fault. -/
def sweep (step : SectionStep) : List Matching → Work → Outcome (List Matching × Work) Unit
  | [], w => .done ([], w) ()
  | m :: rest, w =>
    let here := step m w
    match here.answer with
    | .error f =>
      { state := (here.state.1 :: rest, here.state.2), log := here.log, answer := .error f }
    | .ok _ =>
      let others := sweep step rest here.state.2
      { state := (here.state.1 :: others.state.1, others.state.2)
        log := here.log ++ others.log
        answer := others.answer }

/-- Matches and commits the pins of a section. -/
def pinStep (mirrored : Bool) : SectionStep := fun m w =>
  ((m.findPins w.board mirrored).mapState (·, w)).andThen fun (m, w) _ =>
  ((m.commitPins w.board mirrored).mapState fun board => (m, { w with board })).andThen
    fun (m, w) result => .done (m, w.absorb result) ()

/-- Holds back the slots that the groups of a section will take. -/
def reserveStep : SectionStep := fun m w =>
  if m.sec.groups.isEmpty then .done (m, w) ()
  else (m.reserveBlocks w.board).mapState (·, w)

/-- Matches and commits the groups of a section. -/
def groupStep : SectionStep := fun m w =>
  if m.sec.groups.isEmpty then .done (m, w) ()
  else
    ((m.findGroups w.board).mapState (·, w)).andThen fun (m, w) _ =>
    ((m.commitGroups w.board).mapState fun (m, board) => (m, { w with board })).andThen
      fun (m, w) result => .done (m, w.absorb result) ()

/-- The passes of a run in order; those that do not apply are left out. -/
def passes (board : Board) (config : Config) : List SectionStep :=
  (if board.pins.mirrors.isEmpty then [] else [pinStep true]) ++
    (if config.assignGroups then [reserveStep] else []) ++
    [pinStep false] ++
    (if config.assignGroups then [groupStep] else [])

/-- The report once all passes are over. -/
def finish (w : Work) : Report :=
  let unplaced := w.board.pins.unplaced
  { w.report with unplaced, success := unplaced.isEmpty && w.report.errors.isEmpty }

/-- The warnings about the pins that a run left without a place. -/
def unplacedLog (r : Report) : List LogEntry :=
  r.unplaced.map fun name =>
    ⟨.warning, .runs, s!"I/O pin {name} was not assigned to any slot"⟩

/-- The verdict on a finished run. -/
def judge (config : Config) (failures : List MirrorFailure) (r : Report) : Verdict :=
  if config.strictMirroring && !failures.isEmpty then .mirrorsFailed failures r else .placed r

/-- Reports on a finished run and judges it.  A total cost that cannot be written is a fault. -/
def conclude (config : Config) (failures : List MirrorFailure) (r : Report) :
    Outcome Unit Verdict :=
  (Outcome.lift () (written (Text.decimal? r.totalCost))).andThen fun _ cost =>
    (Outcome.done () (judge config failures r)).report
      ⟨.info, .runs, s!"Placed {r.placed} pins in {r.sections} sections, total cost {cost}"⟩

/-- The end of a run that found no available slot. -/
def withoutSections (board : Board) : Outcome (Board × List Section) Verdict :=
  let unplaced := board.pins.unplaced
  (Outcome.done (board, []) (Verdict.placed { success := unplaced.isEmpty, unplaced })).report
    ⟨.warning, .runs, "No free slots on the boundary"⟩

/-- A table with mirrored pins needs a reflection. -/
def checkReflection (pins : PinTable) (reflection : Option Reflection) : Except Fault Unit :=
  if !pins.mirrors.isEmpty && reflection.isNone then .error .reflectionRequired else .ok ()

/-- Carries out the passes over sections that have their pins and groups. -/
def place (board : Board) (model : CostModel) (reflection : Option Reflection) (config : Config)
    (secs : List Section) : Outcome (Board × List Section) Verdict :=
  let matchings := secs.map (Matching.ofSection · model reflection false)
  let work : Work := { board, report := { sections := secs.length } }
  let swept := Outcome.forEach (fun (ms, w) step => sweep step ms w) (matchings, work)
    (passes board config)
  let state := (swept.state.2.board, swept.state.1.map (·.sec))
  match swept.answer with
  | .error f => { state, log := swept.log, answer := .error f }
  | .ok _ =>
    let report := finish swept.state.2
    let ended := conclude config swept.state.2.failures report
    { state, log := swept.log ++ unplacedLog report ++ ended.log, answer := ended.answer }

end Run

/-- Places all pins and groups of a board.  A fault half way keeps the board and the sections as
they are by then. -/
def run (board : Board) (model : CostModel) (reflection : Option Reflection) (config : Config) :
    Outcome (Board × List Section) Verdict :=
  let secs := board.boundary.sections config.sectionSize
  if secs.isEmpty then
    Run.withoutSections board
  else
    ((distribute board model config secs).mapState (board, ·)).andThen fun (board, secs) _ =>
      Run.place board model reflection config secs

end PinRing
