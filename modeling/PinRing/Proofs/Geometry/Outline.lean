import Mathlib.Tactic.Common
import PinRing.Geometry.Outline
import PinRing.Proofs.Except
import PinRing.Proofs.Geometry.Core

/-! Reflections, and the one across an outline.  Whatever its bounds are, it sends a point back
where it came from, and no point to itself. -/

namespace PinRing

/-! ### Numbers in order -/

@[simp] theorem Number.atMost_finite_int (m n : Int) :
    (finite m).atMost (finite n) = decide (m ≤ n) := by
  simp [atMost, Rat.intCast_le_intCast]

theorem Number.whole?_eq_some {a : Number} {n : Int} : a.whole? = some n ↔ a = .finite n := by
  constructor
  · intro h
    cases a with
    | finite r =>
      rw [whole?] at h
      split at h
      · rename_i hden
        have hr : r = r.num := Rat.ext (by simp) (by simp [hden])
        rw [hr, Option.some.inj h]
      · cases h
    | _ => cases h
  · rintro rfl
    simp [whole?]

namespace Value

variable {v w low high : Value} {a b : Number} {m n k : Int}

theorem number?_of_whole? (h : v.whole? = some m) : v.number? = some (.finite m) := by
  obtain ⟨a, ha, hwhole⟩ := Option.bind_eq_some_iff.mp h
  rw [ha, Number.whole?_eq_some.mp hwhole]

theorem atMost?_of_number? (hv : v.number? = some a) (hw : w.number? = some b) :
    v.atMost? w = some (a.atMost b) := by
  have hbind : v.atMost? w = (do return (← v.number?).atMost (← w.number?)) := by
    cases v with
    | text s => cases hv
    | list vs => cases hv
    | _ => rfl
  rw [hbind, hv, hw]
  rfl

/-- Bounds in order that are integers. -/
theorem lt_of_ordered (hlow : low.whole? = some m) (hhigh : high.whole? = some k)
    (h : high.atMost? low = some false) : m < k := by
  rw [atMost?_of_number? (number?_of_whole? hhigh) (number?_of_whole? hlow)] at h
  simpa using h

end Value

/-! ### Images -/

namespace Image

/-- Both coordinates can be written. -/
def isWritable (i : Image) : Bool := i.x.writable && i.y.writable

@[simp] theorem isSome_text? (i : Image) : i.text?.isSome = i.isWritable := by
  unfold text? isWritable Value.asText?
  cases i.x.writable <;> cases i.y.writable <;> rfl

theorem point?_eq_some {i : Image} {p : Point} :
    i.point? = some p ↔ i.x.whole? = some p.x ∧ i.y.whole? = some p.y := by
  obtain ⟨x, y⟩ := p
  unfold point?
  cases i.x.whole? <;> cases i.y.whole? <;> simp

@[simp] theorem point?_ofPoint (p : Point) : (ofPoint p).point? = some p :=
  point?_eq_some.mpr ⟨Value.whole?_int p.x, Value.whole?_int p.y⟩

end Image

namespace Reflection

variable {reflect : Reflection} {p q q' : Point}

/-- The image of the first point falls on the second. -/
def Sends (reflect : Reflection) (p q : Point) : Prop :=
  ∃ image, reflect p = .ok image ∧ image.point? = some q

theorem sends_iff {image : Image} (h : reflect p = .ok image) :
    reflect.Sends p q ↔ image.point? = some q := by
  simp [Sends, h]

theorem Sends.unique (h : reflect.Sends p q) (h' : reflect.Sends p q') : q = q' := by
  obtain ⟨image, himage, hq⟩ := h
  obtain ⟨image', himage', hq'⟩ := h'
  obtain rfl := Except.ok.inj (himage.symm.trans himage')
  exact Option.some.inj (hq.symm.trans hq')

end Reflection

/-! ### Reflections across an outline -/

namespace Outline

variable {c : Outline} {p q : Point} {side low high : Value} {m n k l : Int} {e e' : Edge}

theorem onSide?_eq_true : onSide? side m low n high = some true ↔
    side.whole? = some m ∧ between? low n high = some true := by
  unfold onSide?
  split <;> simp [*]

theorem onSide?_of_ne (h : side.whole? ≠ some m) : onSide? side m low n high = some false :=
  if_neg h

/-- Between two integers a coordinate is in order with both. -/
theorem between?_of_whole? (hlow : low.whole? = some k) (hhigh : high.whole? = some l) :
    between? low n high = some (decide (k ≤ n ∧ n ≤ l)) := by
  have hle := Value.atMost?_of_number? (Value.number?_of_whole? hlow) (Value.number?_int n)
  have hge := Value.atMost?_of_number? (Value.number?_int n) (Value.number?_of_whole? hhigh)
  rw [between?, hle, hge]
  by_cases hk : k ≤ n <;> simp [hk]

theorem sideOr_eq_some {on? : Option Bool} {others : Option Edge} : sideOr on? e others = some e' ↔
    on? = some true ∧ e = e' ∨ on? = some false ∧ others = some e' := by
  unfold sideOr
  cases on? with
  | none => simp
  | some on => cases on <;> simp

theorem edgeOf?_eq_bottom : c.edgeOf? p = some .bottom ↔
    c.ymin.whole? = some p.y ∧ between? c.xmin p.x c.xmax = some true := by
  simp [edgeOf?, sideOr_eq_some, onSide?_eq_true]

/-- The bounds of a coordinate differ, so a point at the upper one is not at the lower one. -/
theorem edgeOf?_eq_top : c.edgeOf? p = some .top ↔
    c.ymax.whole? = some p.y ∧ between? c.xmin p.x c.xmax = some true := by
  have hoff : c.ymax.whole? = some p.y → onSide? c.ymin p.y c.xmin p.x c.xmax = some false := by
    intro hmax
    refine onSide?_of_ne fun hmin => ?_
    exact Int.lt_irrefl _ (Value.lt_of_ordered hmin hmax c.y_ordered)
  simp only [edgeOf?, sideOr_eq_some, onSide?_eq_true, Option.some.injEq, reduceCtorEq, and_false,
    false_or, and_true, or_false]
  exact ⟨fun h => h.2, fun h => ⟨hoff h.1, h⟩⟩

/-- A point at neither `y` bound lies left or right as its `x` says. -/
theorem edgeOf?_of_between (hmin : c.ymin.whole? ≠ some p.y) (hmax : c.ymax.whole? ≠ some p.y)
    (hy : between? c.ymin p.y c.ymax = some true) :
    (c.xmin.whole? = some p.x → c.edgeOf? p = some .left) ∧
      (c.xmax.whole? = some p.x → c.edgeOf? p = some .right) := by
  have hbottom : onSide? c.ymin p.y c.xmin p.x c.xmax = some false := onSide?_of_ne hmin
  have htop : onSide? c.ymax p.y c.xmin p.x c.xmax = some false := onSide?_of_ne hmax
  simp only [edgeOf?, sideOr_eq_some, hbottom, htop, onSide?_eq_true, hy]
  refine ⟨fun hx => by simp [hx], fun hx => ?_⟩
  have hleft : onSide? c.xmin p.x c.ymin p.y c.ymax = some false := by
    refine onSide?_of_ne fun hx' => ?_
    exact Int.lt_irrefl _ (Value.lt_of_ordered hx' hx c.x_ordered)
  simp [hx, hleft]

/-- A point on the left or right side is at neither `y` bound if the `x` bounds are integers. -/
theorem whole?_ne_of_onSide? (hmin : c.xmin.whole? = some k) (hmax : c.xmax.whole? = some l)
    (hn : n = k ∨ n = l) (hoff : onSide? side m c.xmin n c.xmax = some false) :
    side.whole? ≠ some m := by
  intro hside
  have hlt := Value.lt_of_ordered hmin hmax c.x_ordered
  have hinside : k ≤ n ∧ n ≤ l := by omega
  rw [onSide?, if_pos hside, between?_of_whole? hmin hmax] at hoff
  simp [hinside] at hoff

theorem edgeOf?_eq_left (h : c.edgeOf? p = some .left) :
    c.xmin.whole? = some p.x ∧ between? c.ymin p.y c.ymax = some true ∧
      onSide? c.ymin p.y c.xmin p.x c.xmax = some false ∧
      onSide? c.ymax p.y c.xmin p.x c.xmax = some false := by
  simp only [edgeOf?, sideOr_eq_some, onSide?_eq_true, Option.some.injEq, reduceCtorEq, and_false,
    false_or, and_true, or_false] at h
  exact ⟨h.2.2.1, h.2.2.2, h.1, h.2.1⟩

theorem edgeOf?_eq_right (h : c.edgeOf? p = some .right) :
    c.xmax.whole? = some p.x ∧ between? c.ymin p.y c.ymax = some true ∧
      onSide? c.ymin p.y c.xmin p.x c.xmax = some false ∧
      onSide? c.ymax p.y c.xmin p.x c.xmax = some false := by
  simp only [edgeOf?, sideOr_eq_some, onSide?_eq_true, Option.some.injEq, reduceCtorEq, and_false,
    false_or, and_true, or_false] at h
  exact ⟨h.2.2.2.1, h.2.2.2.2, h.1, h.2.1⟩

/-- The image of a point that falls on a point lies across the outline, and falls back. -/
theorem sends_opposite (h : c.reflection.Sends p q) :
    ∃ e, c.edgeOf? p = some e ∧ e ≠ .invalid ∧ c.edgeOf? q = some e.opposite ∧
      c.reflection.Sends q p := by
  obtain ⟨px, py⟩ := p
  obtain ⟨image, himage, hq⟩ := h
  obtain ⟨hx, hy⟩ := Image.point?_eq_some.mp hq
  obtain ⟨qx, qy⟩ := q
  cases hedge : c.edgeOf? ⟨px, py⟩ with
  | none => simp [reflection, hedge] at himage
  | some e =>
    refine ⟨e, rfl, ?_⟩
    cases e with
    | invalid => simp [reflection, hedge] at himage
    | bottom =>
      obtain rfl : _ = image := by simpa [reflection, hedge] using himage
      obtain rfl : px = qx := by simpa using hx
      obtain ⟨hmin, hbetween⟩ := edgeOf?_eq_bottom.mp hedge
      have htop : c.edgeOf? ⟨px, qy⟩ = some .top := edgeOf?_eq_top.mpr ⟨hy, hbetween⟩
      exact ⟨nofun, htop, _, by rw [reflection, htop],
        Image.point?_eq_some.mpr ⟨Value.whole?_int px, hmin⟩⟩
    | top =>
      obtain rfl : _ = image := by simpa [reflection, hedge] using himage
      obtain rfl : px = qx := by simpa using hx
      obtain ⟨hmax, hbetween⟩ := edgeOf?_eq_top.mp hedge
      have hbottom : c.edgeOf? ⟨px, qy⟩ = some .bottom := edgeOf?_eq_bottom.mpr ⟨hy, hbetween⟩
      exact ⟨nofun, hbottom, _, by rw [reflection, hbottom],
        Image.point?_eq_some.mpr ⟨Value.whole?_int px, hmax⟩⟩
    | left =>
      obtain rfl : _ = image := by simpa [reflection, hedge] using himage
      obtain rfl : py = qy := by simpa using hy
      obtain ⟨hmin, hbetween, hbottom, htop⟩ := edgeOf?_eq_left hedge
      have hright : c.edgeOf? ⟨qx, py⟩ = some .right :=
        (edgeOf?_of_between (p := ⟨qx, py⟩) (whole?_ne_of_onSide? hmin hx (.inl rfl) hbottom)
          (whole?_ne_of_onSide? hmin hx (.inl rfl) htop) hbetween).2 hx
      exact ⟨nofun, hright, _, by rw [reflection, hright],
        Image.point?_eq_some.mpr ⟨hmin, Value.whole?_int py⟩⟩
    | right =>
      obtain rfl : _ = image := by simpa [reflection, hedge] using himage
      obtain rfl : py = qy := by simpa using hy
      obtain ⟨hmax, hbetween, hbottom, htop⟩ := edgeOf?_eq_right hedge
      have hleft : c.edgeOf? ⟨qx, py⟩ = some .left :=
        (edgeOf?_of_between (p := ⟨qx, py⟩) (whole?_ne_of_onSide? hx hmax (.inr rfl) hbottom)
          (whole?_ne_of_onSide? hx hmax (.inr rfl) htop) hbetween).1 hx
      exact ⟨nofun, hleft, _, by rw [reflection, hleft],
        Image.point?_eq_some.mpr ⟨hmax, Value.whole?_int py⟩⟩

theorem sends_symm (h : c.reflection.Sends p q) : c.reflection.Sends q p := by
  obtain ⟨e, -, -, -, hback⟩ := sends_opposite h
  exact hback

/-- No point is its own image, since no side is opposite to itself. -/
theorem not_sends_self (c : Outline) (p : Point) : ¬c.reflection.Sends p p := by
  intro h
  obtain ⟨e, he, hne, hopposite, -⟩ := sends_opposite h
  rw [he] at hopposite
  cases e <;> simp_all [Edge.opposite]

/-- A reflection stops at a point off the boundary, and where the bounds are in no order with the
point. -/
theorem stoppedBy_reflection (c : Outline) (p : Point) :
    StoppedBy (c.reflection p) fun f => c.edgeOf? p = some .invalid ∧ f = .offBoundary p ∨
      c.edgeOf? p = none ∧ f = .incomparable := by
  unfold reflection
  cases hedge : c.edgeOf? p with
  | none => exact (StoppedBy.error _).congr fun f => by simp
  | some e =>
    cases e with
    | invalid => exact (StoppedBy.error _).congr fun f => by simp
    | _ => exact (StoppedBy.ok _).congr fun f => by simp

end Outline

/-! ### Integer bounds -/

namespace Core

@[simp] theorem edgeOf?_outline (c : Core) (p : Point) :
    c.outline.edgeOf? p = some (c.edgeOf p) := by
  have hside : ∀ side m low n high : Int, Outline.onSide? (.int side) m (.int low) n (.int high) =
      some (decide (m = side ∧ low ≤ n ∧ n ≤ high)) := by
    intro side m low n high
    rw [Outline.onSide?,
      Outline.between?_of_whole? (Value.whole?_int low) (Value.whole?_int high)]
    rcases eq_or_ne m side with rfl | hm
    · simp
    · simp [hm, hm.symm]
  simp only [Outline.edgeOf?, Outline.sideOr, outline, hside, edgeOf, Option.bind_eq_bind,
    Option.bind_some, decide_eq_true_eq]
  split_ifs <;> rfl

/-- Across integer bounds, images are points. -/
theorem reflection_outline (c : Core) (p : Point) :
    c.outline.reflection p = (c.reflection p).map .ofPoint := by
  rw [Outline.reflection, edgeOf?_outline, reflection, reflect?]
  cases c.edgeOf p <;> rfl

/-- A point off the perimeter has no image.  A point on it, corners included, has one: another point
of the perimeter, on the opposite side, whose own image is the first point.  The outline with these
bounds has the same sides and the same images. -/
theorem reflection_across (c : Core) (p : Point) :
    (c.reflection p = .error (.offBoundary p) ↔ ¬c.OnPerimeter p) ∧
      (c.OnPerimeter p → ∃ q, c.reflection p = .ok q ∧ c.OnPerimeter q ∧ q ≠ p ∧
        c.edgeOf p ≠ .invalid ∧ c.edgeOf q = (c.edgeOf p).opposite ∧
        c.reflection q = .ok p) ∧
      c.outline.edgeOf? p = some (c.edgeOf p) ∧
      c.outline.reflection p = (c.reflection p).map .ofPoint := by
  refine ⟨?_, fun hp => ?_, c.edgeOf?_outline p, c.reflection_outline p⟩
  · rw [reflection_eq_error, edgeOf_eq_invalid]
    exact and_iff_left rfl
  · have hedge : c.edgeOf p ≠ .invalid := fun h => edgeOf_eq_invalid.mp h hp
    obtain ⟨q, hq⟩ := Option.ne_none_iff_exists'.mp (mt reflect?_eq_none.mp hedge)
    have hback := reflect?_symm hq
    have hmem : c.OnPerimeter q := by
      by_contra hout
      rw [reflect?_eq_none.mpr (edgeOf_eq_invalid.mpr hout)] at hback
      cases hback
    refine ⟨q, reflection_eq_ok.mpr hq, hmem, ?_, hedge, (reflect?_opposite hq).1,
      reflection_eq_ok.mpr hback⟩
    rintro rfl
    exact reflect?_ne c q hq

theorem reflection_across_corner :
    let c : Core := { xmin := -10, ymin := 5, xmax := 90, ymax := 75 }
    let p : Point := ⟨-10, 75⟩
    c.OnPerimeter p ∧ ∃ q, c.reflection p = .ok q ∧ c.OnPerimeter q ∧ q ≠ p ∧
      c.edgeOf p ≠ .invalid ∧ c.edgeOf q = (c.edgeOf p).opposite ∧ c.reflection q = .ok p := by
  intro c p
  have hp : c.OnPerimeter p := ⟨by decide, by decide, by decide⟩
  exact ⟨hp, (reflection_across c p).2.1 hp⟩

end Core

end PinRing
