import PinRing.Placement.Config
import PinRing.Board.Basic
import PinRing.Cost.Model

/-! The distribution of groups and pins over sections.  Each goes to the section whose middle
available slot is cheapest for it, among the sections that have capacity left; groups go first.  Of
a mirror pair only the first pin is distributed, and its partner follows it by reflection. -/

namespace PinRing

/-- A section that takes part in the distribution. -/
structure Share where
  sec : Section
  /-- The position at which the section is priced. -/
  middle : Point
  /-- The slots that may still be given out; negative once the section is overfull. -/
  capacity : Int

namespace Distribution

/-- The position of the middle one of a section's available slots. -/
def middle (b : Boundary) (s : Section) : Except Fault Point :=
  let free := b.free s.first s.stop
  match free[free.length / 2]? with
  | none => .error .outOfRange
  | some i => (b.slot i).map (·.pos)

/-- Empties the sections and gives each its capacity and position.  A section without an available
slot is a fault; the sections before it are empty by then. -/
def prepare (b : Boundary) (config : Config) : List Section → Outcome (List Section) (List Share)
  | [] => .done [] []
  | s :: rest =>
    match middle b s with
    | .error f => .stop (s :: rest) f
    | .ok mid =>
      let emptied := { s with pins := [], groups := [] }
      let others := prepare b config rest
      { state := emptied :: others.state
        log := others.log
        answer := others.answer.map
          ({ sec := emptied, middle := mid, capacity := config.capacity s.room.toNat } :: ·) }

/-- The position of the best cost among those that satisfy `eligible`; of equals the first. -/
def bestWhere (eligible : Nat → Bool) (costs : List Cost) : Option Nat :=
  (costs.zipIdx.filter fun (_, i) => eligible i).foldl
    (fun best (c, i) =>
      match best with
      | none => some (c, i)
      | some (d, j) => if c.better d then some (c, i) else some (d, j))
    none |>.map (·.2)

/-- Whether a section has at least `size` slots left to give out. -/
def hasCapacity (shares : List Share) (size : Int) (i : Nat) : Bool :=
  (shares[i]?).any (size ≤ ·.capacity)

def giveGroup (g : PinGroup) (s : Share) : Share :=
  { s with
    sec := { s.sec with groups := s.sec.groups ++ [g] }
    capacity := s.capacity - g.size }

def givePin (pin : Nat) (s : Share) : Share :=
  { s with
    sec := { s.sec with pins := s.sec.pins ++ [pin] }
    capacity := s.capacity - 1 }

/-- Gives a group that is not all placed to the best section with room for all of it. -/
def distributeGroup (pins : PinTable) (model : CostModel) (shares : List Share) (g : PinGroup) :
    Outcome (List Share) Unit :=
  if g.members.all pins.isPlaced then
    .done shares ()
  else
    (Outcome.lift shares (shares.mapM fun s => model.groupCost g.members s.middle)).andThen
      fun shares costs =>
    match bestWhere (hasCapacity shares g.size) costs with
    | some i => .done (shares.modify i (giveGroup g)) ()
    | none =>
      (Outcome.done shares ()).report
        ⟨.warning, .runs, s!"No section has room for pin group {g.name}"⟩

/-- The sections so far, and the partners of pins given out already. -/
structure PinProgress where
  shares : List Share
  followers : List Nat := []

/-- Gives an unplaced pin outside all groups to the best section with capacity left, or to the best
of all when none has any.  A pin that follows its partner is passed over. -/
def distributePin (pins : PinTable) (model : CostModel) (p : PinProgress) (pin : Nat) :
    Outcome PinProgress Unit :=
  (Outcome.lift p (pins.pin pin)).andThen fun p entry =>
  if entry.placed || entry.grouped || p.followers.contains pin then
    .done p ()
  else
    (Outcome.lift p (pins.partner pin)).andThen fun p partner =>
    let p := { p with followers := partner.toList ++ p.followers }
    (Outcome.lift p (p.shares.mapM fun s => model pin s.middle)).andThen fun p costs =>
    match (bestWhere (hasCapacity p.shares 1) costs).or (bestWhere (fun _ => true) costs) with
    | none => .stop p .outOfRange
    | some i => .done { p with shares := p.shares.modify i (givePin pin) } ()

end Distribution

/-- Distributes all groups and pins of a board over sections, which are emptied first. -/
def distribute (board : Board) (model : CostModel) (config : Config) (secs : List Section) :
    Outcome (List Section) Unit :=
  (Distribution.prepare board.boundary config secs).andThen fun _ shares =>
  ((Outcome.forEach (Distribution.distributeGroup board.pins model) shares
      board.pins.groups).andThen fun shares _ =>
  ((Outcome.forEach (Distribution.distributePin board.pins model) { shares }
      (List.range board.pins.size)).mapState (·.shares)).andThen fun shares _ =>
  { state := shares
    log := shares.map fun s => ⟨.debug, .runs, s.sec.text⟩
    answer := .ok () }).mapState (·.map (·.sec))

end PinRing
