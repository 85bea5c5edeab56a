import PinRing.Cost.Basic
import PinRing.Fault

/-! Cost models: what it costs to put a pin at a position.  The model that problem files describe
takes the distance to a target point and rules out positions outside a region. -/

namespace PinRing

/-- The cost of each pin at each position, or the fault with which the model gives up. -/
abbrev CostModel := Nat → Point → Except Fault Cost

/-- Target points and regions by pin index; of several entries for one pin the first counts. -/
structure TargetModel where
  targets : List (Nat × Point) := []
  regions : List (Nat × Region) := []
  /-- The cost of a pin without a target. -/
  defaultCost : Int := 0

/-- The distance to the pin's target.  A position outside the pin's region is infeasible, and a pin
without a target costs the same everywhere. -/
def TargetModel.cost (m : TargetModel) (pin : Nat) (p : Point) : Cost :=
  if ((m.regions.lookup pin).all (·.contains p)) then
    match m.targets.lookup pin with
    | some target => .finite (target.distance p)
    | none => .finite m.defaultCost
  else
    .infeasible

/-- The same as a cost model. -/
def TargetModel.model (m : TargetModel) : CostModel := fun pin p => .ok (m.cost pin p)

namespace CostModel

/-- The model that prices nothing. -/
def absent : CostModel := fun _ _ => .error .noCost

/-- A cost `a * x + b * y + c * pin`. -/
def linear (a b c : Int) : CostModel := fun pin p =>
  .ok (.ofAnswer (some (a * p.x + b * p.y + c * pin)))

/-- Costs listed for each position, by pin. -/
def table (rows : List (Point × List (Option Int))) : CostModel := fun pin p =>
  match (rows.lookup p).bind (·[pin]?) with
  | some answer => .ok (.ofAnswer answer)
  | none => .error .outOfRange

/-- The cost of a group at one position: the sum over its members, infeasible from the first
infeasible member on. -/
def groupCost (model : CostModel) (members : List Nat) (p : Point) : Except Fault Cost :=
  go (.finite 0) members
where
  go (total : Cost) : List Nat → Except Fault Cost
    | [] => .ok total
    | pin :: rest =>
      match model pin p with
      | .error f => .error f
      | .ok .infeasible => .ok .infeasible
      | .ok cost => go (total + cost) rest

end CostModel

end PinRing
