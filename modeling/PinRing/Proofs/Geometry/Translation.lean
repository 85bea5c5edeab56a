import Mathlib.Tactic.Linarith
import PinRing.Cost.Model
import PinRing.Proofs.Geometry.Outline

/-! Everything on the layout plane moved by one vector.  The side of the core that a point lies on,
reflections, and the costs of a problem move along. -/

namespace PinRing

def Point.translate (p d : Point) : Point := ⟨p.x + d.x, p.y + d.y⟩

def Region.translate (r : Region) (d : Point) : Region :=
  ⟨r.xmin + d.x, r.ymin + d.y, r.xmax + d.x, r.ymax + d.y⟩

def Core.translate (c : Core) (d : Point) : Core where
  xmin := c.xmin + d.x
  ymin := c.ymin + d.y
  xmax := c.xmax + d.x
  ymax := c.ymax + d.y
  xmin_lt_xmax := Int.add_lt_add_right c.xmin_lt_xmax d.x
  ymin_lt_ymax := Int.add_lt_add_right c.ymin_lt_ymax d.y

/-- The number moved by `n`, exactly. -/
def Number.translate (a : Number) (n : Int) : Number :=
  match a with
  | .finite r => .finite (r + n)
  | a => a

/-- Both values stand for numbers, and the second number is the first moved by `n`. -/
def Value.MovesTo (v w : Value) (n : Int) : Prop :=
  ∃ a, v.number? = some a ∧ w.number? = some (a.translate n)

/-- The second outline is the first moved by `d`. -/
structure Outline.MovesTo (c c' : Outline) (d : Point) : Prop where
  xmin : c.xmin.MovesTo c'.xmin d.x
  ymin : c.ymin.MovesTo c'.ymin d.y
  xmax : c.xmax.MovesTo c'.xmax d.x
  ymax : c.ymax.MovesTo c'.ymax d.y

/-- The second image falls on the point of the first moved by `d`, or both fall on no point. -/
def Image.MovesTo (i i' : Image) (d : Point) : Prop :=
  i'.point? = i.point?.map (·.translate d)

/-- The point that a fault is about moved by `d`. -/
def Fault.translate (f : Fault) (d : Point) : Fault :=
  match f with
  | .offBoundary p => .offBoundary (p.translate d)
  | f => f

def TargetModel.translate (m : TargetModel) (d : Point) : TargetModel where
  targets := m.targets.map fun e => (e.1, e.2.translate d)
  regions := m.regions.map fun e => (e.1, e.2.translate d)
  defaultCost := m.defaultCost

variable {d p q : Point} {c c' : Outline}

theorem Point.translate_inj : p.translate d = q.translate d ↔ p = q := by
  obtain ⟨px, py⟩ := p
  obtain ⟨qx, qy⟩ := q
  simp [Point.translate]

@[simp] theorem Point.beq_translate (p q d : Point) :
    (p.translate d == q.translate d) = (p == q) := by
  rw [Bool.eq_iff_iff, beq_iff_eq, beq_iff_eq]
  exact translate_inj

@[simp] theorem Point.distance_translate (p q d : Point) :
    (p.translate d).distance (q.translate d) = p.distance q := by
  simp only [distance, translate, Int.add_sub_add_right]

@[simp] theorem Region.contains_translate (r : Region) (p d : Point) :
    (r.translate d).contains (p.translate d) = r.contains p := by
  simp only [contains, translate, Point.translate, Int.add_le_add_iff_right]

/-! ### The core -/

theorem Number.atMost_translate (a b : Number) (n : Int) :
    (a.translate n).atMost (b.translate n) = a.atMost b := by
  cases a <;> cases b <;> simp [atMost, translate]

theorem Number.whole?_translate (a : Number) (n : Int) :
    (a.translate n).whole? = a.whole?.map (· + n) := by
  refine Option.ext fun m => ?_
  simp only [whole?_eq_some, Option.map_eq_some_iff]
  cases a with
  | finite r =>
    simp only [translate, finite.injEq]
    constructor
    · intro h
      refine ⟨m - n, ?_, by omega⟩
      push_cast
      linarith
    · rintro ⟨k, rfl, rfl⟩
      push_cast
      rfl
  | nan => simp [translate]
  | infinite negative => simp [translate]

namespace Value

variable {v v' w w' : Value} {m n : Int}

theorem movesTo_int (m n : Int) : (int m).MovesTo (int (m + n)) n :=
  ⟨.finite m, rfl, by simp [Number.translate]⟩

theorem MovesTo.atMost? (hv : v.MovesTo v' n) (hw : w.MovesTo w' n) :
    v'.atMost? w' = v.atMost? w := by
  obtain ⟨a, ha, ha'⟩ := hv
  obtain ⟨b, hb, hb'⟩ := hw
  rw [atMost?_of_number? ha hb, atMost?_of_number? ha' hb', Number.atMost_translate]

theorem MovesTo.whole? (h : v.MovesTo v' n) : v'.whole? = v.whole?.map (· + n) := by
  obtain ⟨a, ha, ha'⟩ := h
  rw [Value.whole?, Value.whole?, ha, ha']
  exact a.whole?_translate n

end Value

namespace Outline

variable {side side' low low' high high' : Value} {k l m n : Int}

theorem onSide?_of_movesTo (hside : side.MovesTo side' k) (hlow : low.MovesTo low' l)
    (hhigh : high.MovesTo high' l) :
    onSide? side' (m + k) low' (n + l) high' = onSide? side m low n high := by
  have hle := hlow.atMost? (Value.movesTo_int n l)
  have hge := (Value.movesTo_int n l).atMost? hhigh
  have hwhole : side'.whole? = some (m + k) ↔ side.whole? = some m := by
    rw [hside.whole?]
    simp
  simp only [onSide?, between?, hle, hge, hwhole]

/-- A point lies on the same side when both have been moved. -/
theorem MovesTo.edgeOf? (h : c.MovesTo c' d) (p : Point) :
    c'.edgeOf? (p.translate d) = c.edgeOf? p := by
  simp only [Outline.edgeOf?, Point.translate, onSide?_of_movesTo h.ymin h.xmin h.xmax,
    onSide?_of_movesTo h.ymax h.xmin h.xmax, onSide?_of_movesTo h.xmin h.ymin h.ymax,
    onSide?_of_movesTo h.xmax h.ymin h.ymax]

end Outline

theorem Image.movesTo_of_values {i i' : Image} (hx : i.x.MovesTo i'.x d.x)
    (hy : i.y.MovesTo i'.y d.y) : i.MovesTo i' d := by
  rw [MovesTo, point?, point?, hx.whole?, hy.whole?]
  cases i.x.whole? <;> cases i.y.whole? <;> rfl

theorem Core.movesTo_translate (c : Core) (d : Point) :
    c.outline.MovesTo (c.translate d).outline d where
  xmin := Value.movesTo_int c.xmin d.x
  ymin := Value.movesTo_int c.ymin d.y
  xmax := Value.movesTo_int c.xmax d.x
  ymax := Value.movesTo_int c.ymax d.y

/-! ### Costs -/

/-- The models price the same, or fail alike, the second after everything has been moved by
`d`. -/
def CostModel.MovesTo (model model' : CostModel) (d : Point) : Prop :=
  ∀ pin p, model' pin (p.translate d) = (model pin p).mapError (·.translate d)

theorem lookup_map_snd {α β : Type} (f : α → β) (key : Nat) (entries : List (Nat × α)) :
    (entries.map fun e => (e.1, f e.2)).lookup key = (entries.lookup key).map f := by
  induction entries with
  | nil => rfl
  | cons e entries ih =>
    obtain ⟨k, a⟩ := e
    rw [List.map_cons, List.lookup_cons, List.lookup_cons, ih]
    cases key == k <;> rfl

/-- Distances and regions do not depend on where the core lies. -/
theorem TargetModel.movesTo_translate (m : TargetModel) (d : Point) :
    m.model.MovesTo (m.translate d).model d := by
  intro pin p
  have hregion := lookup_map_snd (·.translate d) pin m.regions
  have htarget := lookup_map_snd (·.translate d) pin m.targets
  suffices hcost : (m.translate d).cost pin (p.translate d) = m.cost pin p by
    rw [model, model, hcost]
    rfl
  rw [cost, cost, translate, hregion, htarget]
  cases m.regions.lookup pin <;> cases m.targets.lookup pin <;>
    simp only [Option.map_none, Option.map_some, Option.all_none, Option.all_some,
      Region.contains_translate, Point.distance_translate]

theorem CostModel.MovesTo.groupCost {model model' : CostModel} (h : model.MovesTo model' d)
    (members : List Nat) (p : Point) :
    model'.groupCost members (p.translate d) =
      (model.groupCost members p).mapError (·.translate d) := by
  suffices hgo : ∀ total, CostModel.groupCost.go model' (p.translate d) total members =
      (CostModel.groupCost.go model p total members).mapError (·.translate d) from hgo _
  induction members with
  | nil => exact fun _ => rfl
  | cons pin rest ih =>
    intro total
    rw [CostModel.groupCost.go, CostModel.groupCost.go, h pin p]
    cases model pin p with
    | error f => rfl
    | ok cost =>
      cases cost with
      | finite v => exact ih _
      | infeasible => rfl

end PinRing
