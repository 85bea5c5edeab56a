import PinRing.Number.Fraction

/-! The tunables of a placement run. -/

namespace PinRing

/-- The configuration of a run. -/
structure Config where
  /-- The greatest number of slots placed together. -/
  sectionSize : Nat := 200
  sectionSize_pos : 0 < sectionSize := by decide
  /-- The share of a section's available slots that may be given out. -/
  usageFactor : Fraction
  /-- Mirror pairs that cannot be placed are a fault. -/
  strictMirroring : Bool := true
  assignGroups : Bool := true

/-- The number of slots of a section that may be given out, at least one. -/
def Config.capacity (c : Config) (room : Nat) : Nat :=
  max 1 (c.usageFactor.floorMul room)

end PinRing
