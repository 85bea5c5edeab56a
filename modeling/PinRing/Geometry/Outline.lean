import PinRing.Document.Order
import PinRing.Fault
import PinRing.Geometry.Core

/-! The core as a document gives it.  Its bounds may be values of any kind that come in order, so
the image of a slot on the opposite side need not have integer coordinates, and a point may be in no
order with the bounds at all. -/

namespace PinRing

/-- A position whose coordinates may be numbers of any kind. -/
structure Image where
  x : Value
  y : Value

namespace Image

def ofPoint (p : Point) : Image := ⟨.int p.x, .int p.y⟩

/-- The point that the image falls on. -/
def point? (i : Image) : Option Point := do
  return ⟨← i.x.whole?, ← i.y.whole?⟩

/-- The written form, such as `(20, 0)`, if both coordinates can be written. -/
def text? (i : Image) : Option String := do
  let x ← i.x.asText?
  let y ← i.y.asText?
  return s!"({x}, {y})"

end Image

/-- The image of a point on the opposite side, or the fault of a point that has none. -/
abbrev Reflection := Point → Except Fault Image

/-- Four bounds of which the greater ones are not at most the smaller ones. -/
structure Outline where
  xmin : Value
  ymin : Value
  xmax : Value
  ymax : Value
  x_ordered : xmax.atMost? xmin = some false := by decide
  y_ordered : ymax.atMost? ymin = some false := by decide

/-- The core with integer bounds as a document gives it. -/
def Core.outline (c : Core) : Outline where
  xmin := .int c.xmin
  ymin := .int c.ymin
  xmax := .int c.xmax
  ymax := .int c.ymax
  x_ordered := by simp [c.xmin_lt_xmax]
  y_ordered := by simp [c.ymin_lt_ymax]

/-- The reflection in a core with integer bounds. -/
def Core.reflection (c : Core) (p : Point) : Except Fault Point :=
  match c.reflect? p with
  | some q => .ok q
  | none => .error (.offBoundary p)

namespace Outline

/-- Whether a coordinate lies between two bounds, if it is in order with them. -/
def between? (low : Value) (n : Int) (high : Value) : Option Bool := do
  if ← low.atMost? (.int n) then (Value.int n).atMost? high else return false

/-- Whether a point lies on a side: one coordinate is the bound `side`, and the other lies between
the bounds `low` and `high`. -/
def onSide? (side : Value) (m : Int) (low : Value) (n : Int) (high : Value) : Option Bool :=
  if side.whole? = some m then between? low n high else some false

/-- A side if a point lies on it, and what the other sides give otherwise. -/
def sideOr (on? : Option Bool) (e : Edge) (others : Option Edge) : Option Edge := do
  if ← on? then return e else others

/-- The side that a point lies on, if it is in order with the bounds.  A corner belongs to the
bottom or the top. -/
def edgeOf? (c : Outline) (p : Point) : Option Edge :=
  sideOr (onSide? c.ymin p.y c.xmin p.x c.xmax) .bottom <|
  sideOr (onSide? c.ymax p.y c.xmin p.x c.xmax) .top <|
  sideOr (onSide? c.xmin p.x c.ymin p.y c.ymax) .left <|
  sideOr (onSide? c.xmax p.x c.ymin p.y c.ymax) .right (some .invalid)

/-- The reflection across the core: bottom and top are exchanged at the same `x`, left and right at
the same `y`. -/
def reflection (c : Outline) : Reflection := fun p =>
  match c.edgeOf? p with
  | none => .error .incomparable
  | some .bottom => .ok ⟨.int p.x, c.ymax⟩
  | some .top => .ok ⟨.int p.x, c.ymin⟩
  | some .left => .ok ⟨c.xmax, .int p.y⟩
  | some .right => .ok ⟨c.xmin, .int p.y⟩
  | some .invalid => .error (.offBoundary p)

end Outline

end PinRing
