import PinRing.Text.Decimal

/-! Points of the layout plane and the boxes that pins may be confined to.  Coordinates are integers
of any size. -/

namespace PinRing

/-- A position in database units. -/
structure Point where
  x : Int
  y : Int
deriving DecidableEq

/-- The Manhattan distance of two points. -/
def Point.distance (p q : Point) : Nat :=
  (p.x - q.x).natAbs + (p.y - q.y).natAbs

/-- The written form, such as `(20, 0)`, if both coordinates can be written. -/
def Point.text? (p : Point) : Option String := do
  let x ← Text.decimal? p.x
  let y ← Text.decimal? p.y
  return s!"({x}, {y})"

/-- A box with sides parallel to the axes; its bounds belong to it. -/
structure Region where
  xmin : Int
  ymin : Int
  xmax : Int
  ymax : Int
deriving DecidableEq

/-- A point lies in a region, its bounds included. -/
def Region.contains (r : Region) (p : Point) : Bool :=
  r.xmin ≤ p.x && p.x ≤ r.xmax && r.ymin ≤ p.y && p.y ≤ r.ymax

end PinRing
