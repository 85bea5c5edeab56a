import PinRing.Board.Boundary
import PinRing.Board.PinTable

/-! Sections: contiguous stretches of slots on one edge whose pins and groups are placed
together. -/

namespace PinRing

/-- The slots from `first` up to `stop`, with the pins and groups that compete for them. -/
structure Section where
  first : Nat
  stop : Nat
  edge : Edge
  /-- The number of available slots, less those that groups have taken since. -/
  room : Int
  pins : List Nat := []
  groups : List PinGroup := []

namespace Section

/-- A section with no pins whose room is counted on the boundary. -/
def ofRange (b : Boundary) (first stop : Nat) (edge : Edge) : Section :=
  { first, stop, edge, room := b.countFree first stop }

def last (s : Section) : Int := (s.stop : Int) - 1

/-- The written form, such as `Section(top, [4, 7], 4 free, 0 pins, 1 groups)`. -/
def text (s : Section) : String :=
  s!"Section({s.edge.name}, [{s.first}, {s.last}], {s.room} free, {s.pins.length} pins, " ++
    s!"{s.groups.length} groups)"

/-- The number of slots set aside for each group: the size of the largest one. -/
def blockSize (s : Section) : Nat :=
  (s.groups.map PinGroup.size).foldl max 0

end Section

end PinRing
