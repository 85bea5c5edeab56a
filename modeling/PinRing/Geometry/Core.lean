import PinRing.Geometry.Point

/-! The core rectangle with integer bounds: which side a boundary point lies on, and the reflection
that carries a boundary point to the opposite side. -/

namespace PinRing

/-- A side of the core, or `invalid` for a slot on no side. -/
inductive Edge where
  | bottom
  | right
  | top
  | left
  | invalid
deriving DecidableEq

def Edge.name : Edge → String
  | bottom => "bottom"
  | right => "right"
  | top => "top"
  | left => "left"
  | invalid => "invalid"

/-- The edge of a given name, written exactly so. -/
def Edge.ofName? (name : String) : Option Edge :=
  [bottom, right, top, left, invalid].find? (·.name == name)

theorem Edge.ofName?_name (e : Edge) : Edge.ofName? e.name = some e := by
  cases e <;> decide

/-- A rectangle of positive width and height whose boundary carries the slots. -/
structure Core where
  xmin : Int
  ymin : Int
  xmax : Int
  ymax : Int
  xmin_lt_xmax : xmin < xmax := by omega
  ymin_lt_ymax : ymin < ymax := by omega

/-- The side that a point lies on.  A corner belongs to the bottom or the top. -/
def Core.edgeOf (c : Core) (p : Point) : Edge :=
  if p.y = c.ymin ∧ c.xmin ≤ p.x ∧ p.x ≤ c.xmax then .bottom
  else if p.y = c.ymax ∧ c.xmin ≤ p.x ∧ p.x ≤ c.xmax then .top
  else if p.x = c.xmin ∧ c.ymin ≤ p.y ∧ p.y ≤ c.ymax then .left
  else if p.x = c.xmax ∧ c.ymin ≤ p.y ∧ p.y ≤ c.ymax then .right
  else .invalid

/-- The image of a boundary point on the opposite side: bottom and top are exchanged at the same
`x`, left and right at the same `y`.  A point off the boundary has none. -/
def Core.reflect? (c : Core) (p : Point) : Option Point :=
  match c.edgeOf p with
  | .bottom => some ⟨p.x, c.ymax⟩
  | .top => some ⟨p.x, c.ymin⟩
  | .left => some ⟨c.xmax, p.y⟩
  | .right => some ⟨c.xmin, p.y⟩
  | .invalid => none

end PinRing
