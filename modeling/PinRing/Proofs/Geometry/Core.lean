import Mathlib.Tactic.Common
import PinRing.Geometry.Outline
import PinRing.Proofs.Except

/-! Points that can be written, and the reflection of a core: on the perimeter it exchanges opposite
sides and undoes itself, and off the perimeter there is none. -/

namespace PinRing

/-- Both coordinates have few enough digits to be written. -/
def Point.isWritable (p : Point) : Bool := Text.isWritable p.x && Text.isWritable p.y

@[simp] theorem Point.isSome_text? (p : Point) : p.text?.isSome = p.isWritable := by
  unfold text? isWritable
  rw [← Text.isSome_decimal?, ← Text.isSome_decimal?]
  cases Text.decimal? p.x <;> cases Text.decimal? p.y <;> rfl

/-- A part of a message stops it exactly if it cannot be written. -/
theorem stoppedBy_written {text? : Option String} {writable : Bool} (h : text?.isSome = writable) :
    StoppedBy (written text?) fun f => writable = false ∧ f = .unwritable := by
  cases text? with
  | none => exact (StoppedBy.error _).congr fun f => by simp [← h]
  | some text => exact (StoppedBy.ok text).congr fun f => by simp [← h]

/-- The side across the core. -/
def Edge.opposite : Edge → Edge
  | bottom => top
  | right => left
  | top => bottom
  | left => right
  | invalid => invalid

namespace Core

variable {c : Core} {p q : Point}

/-- A point of the rectangle that lies on one of its sides, corners included. -/
structure OnPerimeter (c : Core) (p : Point) : Prop where
  x_mem : c.xmin ≤ p.x ∧ p.x ≤ c.xmax
  y_mem : c.ymin ≤ p.y ∧ p.y ≤ c.ymax
  side : p.x = c.xmin ∨ p.x = c.xmax ∨ p.y = c.ymin ∨ p.y = c.ymax

theorem edgeOf_eq_bottom : c.edgeOf p = .bottom ↔ p.y = c.ymin ∧ c.xmin ≤ p.x ∧ p.x ≤ c.xmax := by
  unfold edgeOf
  split_ifs with h <;> simp [h]

theorem edgeOf_eq_top : c.edgeOf p = .top ↔ p.y = c.ymax ∧ c.xmin ≤ p.x ∧ p.x ≤ c.xmax := by
  have hy := c.ymin_lt_ymax
  unfold edgeOf
  split_ifs <;> simp <;> omega

/-- The ends of the left side belong to the bottom and the top. -/
theorem edgeOf_eq_left : c.edgeOf p = .left ↔ p.x = c.xmin ∧ c.ymin < p.y ∧ p.y < c.ymax := by
  have hx := c.xmin_lt_xmax
  unfold edgeOf
  split_ifs <;> simp <;> omega

theorem edgeOf_eq_right : c.edgeOf p = .right ↔ p.x = c.xmax ∧ c.ymin < p.y ∧ p.y < c.ymax := by
  have hx := c.xmin_lt_xmax
  unfold edgeOf
  split_ifs <;> simp <;> omega

theorem edgeOf_eq_invalid : c.edgeOf p = .invalid ↔ ¬c.OnPerimeter p := by
  have hx := c.xmin_lt_xmax
  have hy := c.ymin_lt_ymax
  have hiff : c.OnPerimeter p ↔ (c.xmin ≤ p.x ∧ p.x ≤ c.xmax) ∧ (c.ymin ≤ p.y ∧ p.y ≤ c.ymax) ∧
      (p.x = c.xmin ∨ p.x = c.xmax ∨ p.y = c.ymin ∨ p.y = c.ymax) :=
    ⟨fun h => ⟨h.x_mem, h.y_mem, h.side⟩, fun h => ⟨h.1, h.2.1, h.2.2⟩⟩
  rw [hiff]
  unfold edgeOf
  split_ifs <;> simp <;> omega

/-- The image of a point lies on the opposite side, and is carried back to the point. -/
theorem reflect?_opposite (h : c.reflect? p = some q) :
    c.edgeOf q = (c.edgeOf p).opposite ∧ c.reflect? q = some p := by
  obtain ⟨x, y⟩ := p
  cases hedge : c.edgeOf ⟨x, y⟩ with
  | bottom =>
    obtain rfl : ⟨x, c.ymax⟩ = q := by simpa [reflect?, hedge] using h
    obtain ⟨rfl, hx⟩ := edgeOf_eq_bottom.mp hedge
    have htop : c.edgeOf ⟨x, c.ymax⟩ = .top := edgeOf_eq_top.mpr ⟨rfl, hx⟩
    exact ⟨htop, by simp [reflect?, htop]⟩
  | top =>
    obtain rfl : ⟨x, c.ymin⟩ = q := by simpa [reflect?, hedge] using h
    obtain ⟨rfl, hx⟩ := edgeOf_eq_top.mp hedge
    have hbottom : c.edgeOf ⟨x, c.ymin⟩ = .bottom := edgeOf_eq_bottom.mpr ⟨rfl, hx⟩
    exact ⟨hbottom, by simp [reflect?, hbottom]⟩
  | left =>
    obtain rfl : ⟨c.xmax, y⟩ = q := by simpa [reflect?, hedge] using h
    obtain ⟨rfl, hy⟩ := edgeOf_eq_left.mp hedge
    have hright : c.edgeOf ⟨c.xmax, y⟩ = .right := edgeOf_eq_right.mpr ⟨rfl, hy⟩
    exact ⟨hright, by simp [reflect?, hright]⟩
  | right =>
    obtain rfl : ⟨c.xmin, y⟩ = q := by simpa [reflect?, hedge] using h
    obtain ⟨rfl, hy⟩ := edgeOf_eq_right.mp hedge
    have hleft : c.edgeOf ⟨c.xmin, y⟩ = .left := edgeOf_eq_left.mpr ⟨rfl, hy⟩
    exact ⟨hleft, by simp [reflect?, hleft]⟩
  | invalid => simp [reflect?, hedge] at h

theorem reflect?_symm (h : c.reflect? p = some q) : c.reflect? q = some p :=
  (reflect?_opposite h).2

/-- No point is its own image, since no side is opposite to itself. -/
theorem reflect?_ne (c : Core) (p : Point) : c.reflect? p ≠ some p := by
  intro h
  have hsame := (reflect?_opposite h).1
  cases hedge : c.edgeOf p with
  | invalid => simp [reflect?, hedge] at h
  | bottom | top | left | right =>
    rw [hedge] at hsame
    cases hsame

theorem reflection_eq_ok : c.reflection p = .ok q ↔ c.reflect? p = some q := by
  unfold reflection
  cases c.reflect? p <;> simp

/-- The points off the boundary have no reflection. -/
theorem reflect?_eq_none : c.reflect? p = none ↔ c.edgeOf p = .invalid := by
  unfold reflect?
  cases c.edgeOf p <;> simp

theorem reflection_eq_error {f : Fault} :
    c.reflection p = .error f ↔ c.edgeOf p = .invalid ∧ f = .offBoundary p := by
  rw [← reflect?_eq_none]
  unfold reflection
  cases c.reflect? p <;> simp [eq_comm]

end Core

end PinRing
