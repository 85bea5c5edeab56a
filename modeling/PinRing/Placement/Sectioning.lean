import PinRing.Board.Section

/-! The division of the boundary into sections: every maximal run of slots on one edge is cut into
stretches of a given length, the last of which may be shorter, and stretches without an available
slot are dropped. -/

namespace PinRing

namespace EdgeRun

/-- The bounds of the stretches of `size` slots into which a run is cut. -/
def stretches (r : EdgeRun) (size : Nat) : List (Nat × Nat) :=
  (List.range ((r.stop - r.first + size - 1) / size)).map fun k =>
    (r.first + k * size, min (r.first + (k + 1) * size) r.stop)

end EdgeRun

namespace Boundary

/-- The stretches of a run as sections. -/
def runSections (b : Boundary) (size : Nat) (r : EdgeRun) : List Section :=
  (r.stretches size).map fun (first, stop) => Section.ofRange b first stop r.edge

/-- The sections of at most `size` slots that have an available slot, in boundary order. -/
def sections (b : Boundary) (size : Nat) : List Section :=
  (b.edgeRuns.flatMap (b.runSections size)).filter (0 < ·.room)

/-- `sections` for any number: a negative one gives no section, and zero is a fault unless there is
nothing to divide. -/
def sectionsBy (b : Boundary) (size : Int) : Except Fault (List Section) :=
  if size = 0 && b.size != 0 then
    .error .emptySections
  else
    .ok (b.sections size.toNat)

end Boundary

end PinRing
