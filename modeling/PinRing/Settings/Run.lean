import PinRing.Placement.Run
import PinRing.Settings

/-! Distribution and placement under settings. -/

namespace PinRing.Settings

/-- Places all pins and groups of a board.  Sections of a fractional number of slots are of the
wrong kind, which matters only where there are slots to divide. -/
def run (s : Settings) (board : Board) (model : CostModel) (reflection : Option Reflection) :
    Except SettingsFault (Outcome (Board × List Section) Verdict) :=
  match s.config with
  | .ok config => .ok (PinRing.run board model reflection config)
  | .error f => if board.boundary.size = 0 then .ok (Run.withoutSections board) else .error f

/-- Distributes all groups and pins of a board over sections; the size of sections does not
matter. -/
def distribute (s : Settings) (board : Board) (model : CostModel) (secs : List Section) :
    Except SettingsFault (Outcome (List Section) Unit) := do
  let config ← { s with sectionSize := .int 1 }.config
  return PinRing.distribute board model config secs

end PinRing.Settings
