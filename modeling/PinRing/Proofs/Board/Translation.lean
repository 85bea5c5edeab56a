import PinRing.Board.Basic
import PinRing.Placement.Sectioning
import PinRing.Proofs.Except
import PinRing.Proofs.Geometry.Translation

/-! A board moved by one vector.  What is asked of its slots and pins by index does not change, and
a slot is found at its new position. -/

namespace PinRing

def Spot.translate (s : Spot) (d : Point) : Spot := { s with pos := s.pos.translate d }

def Slot.translate (s : Slot) (d : Point) : Slot := { s with pos := s.pos.translate d }

def Pin.translate (p : Pin) (d : Point) : Pin := { p with spot := p.spot.map (·.translate d) }

def Boundary.translate (b : Boundary) (d : Point) : Boundary := ⟨b.slots.map (·.translate d)⟩

def PinTable.translate (t : PinTable) (d : Point) : PinTable :=
  { t with pins := t.pins.map (·.translate d) }

/-- The board with all slots and placed pins moved by `d`. -/
def Board.translate (b : Board) (d : Point) : Board where
  boundary := b.boundary.translate d
  pins := b.pins.translate d
  journal := b.journal

/-- A map goes past a change of one entry that it commutes with. -/
theorem modify_map {α β : Type} {g : α → β} {f : α → α} {f' : β → β}
    (as : Array α) (i : Nat) (h : ∀ a, f' (g a) = g (f a)) :
    (as.map g).modify i f' = (as.modify i f).map g := by
  refine Array.ext_getElem? fun j => ?_
  rw [Array.getElem?_modify, Array.getElem?_map, Array.getElem?_map, Array.getElem?_modify]
  split
  · rw [Option.map_map, Option.map_map]
    exact congrArg (Option.map · _) (funext h)
  · rfl

theorem Pin.placed_translate (p : Pin) (d : Point) : (p.translate d).placed = p.placed :=
  Option.isSome_map

namespace Boundary

variable (b : Boundary) (d : Point)

@[simp] theorem getElem?_translate (i : Nat) :
    (b.translate d).slots[i]? = (b.slots[i]?).map (·.translate d) :=
  Array.getElem?_map

theorem slot_translate (i : Nat) :
    (b.translate d).slot i = ((b.slot i).map (·.translate d)).mapError (·.translate d) := by
  rw [slot, getElem?_translate, slot]
  cases b.slots[i]? <;> rfl

@[simp] theorem size_translate : (b.translate d).size = b.size :=
  Array.size_map

@[simp] theorem isAvailable_translate (i : Nat) :
    (b.translate d).isAvailable i = b.isAvailable i := by
  rw [isAvailable, getElem?_translate, Option.any_map]
  rfl

@[simp] theorem free_translate (first stop : Nat) :
    (b.translate d).free first stop = b.free first stop := by
  rw [free, size_translate, funext (b.isAvailable_translate d), free]

@[simp] theorem countFree_translate (first stop : Nat) :
    (b.translate d).countFree first stop = b.countFree first stop := by
  rw [countFree, free_translate, countFree]

@[simp] theorem slotAt?_translate (pos : Point) (layer : Int) :
    (b.translate d).slotAt? (pos.translate d) layer = b.slotAt? pos layer := by
  rw [slotAt?, translate, Array.findIdx?_map, slotAt?]
  congr 1
  funext s
  exact congrArg (· && s.layer == layer) (Point.beq_translate s.pos pos d)

theorem use_translate (i : Nat) : (b.translate d).use i = (b.use i).translate d := by
  simp only [use, translate, Boundary.mk.injEq]
  exact modify_map b.slots i fun _ => rfl

theorem block_translate (i : Nat) : (b.translate d).block i = (b.block i).translate d := by
  simp only [block, translate, Boundary.mk.injEq]
  exact modify_map b.slots i fun _ => rfl

@[simp] theorem edgeRuns_translate : (b.translate d).edgeRuns = b.edgeRuns := by
  rw [edgeRuns, translate, Array.toList_map, List.map_map, edgeRuns]
  rfl

/-- The division into sections follows the edges and what is available. -/
@[simp] theorem sections_translate (size : Nat) :
    (b.translate d).sections size = b.sections size := by
  have hruns : (b.translate d).runSections size = b.runSections size := by
    funext r
    simp only [runSections, Section.ofRange, countFree_translate]
  rw [sections, edgeRuns_translate, hruns, sections]

end Boundary

namespace PinTable

variable (t : PinTable) (d : Point)

@[simp] theorem getElem?_translate (i : Nat) :
    (t.translate d).pins[i]? = (t.pins[i]?).map (·.translate d) :=
  Array.getElem?_map

theorem pin_translate (i : Nat) :
    (t.translate d).pin i = ((t.pin i).map (·.translate d)).mapError (·.translate d) := by
  rw [pin, getElem?_translate, pin]
  cases t.pins[i]? <;> rfl

@[simp] theorem size_translate : (t.translate d).size = t.size :=
  Array.size_map

@[simp] theorem isPlaced_translate (i : Nat) : (t.translate d).isPlaced i = t.isPlaced i := by
  rw [isPlaced, getElem?_translate, Option.any_map, isPlaced]
  congr 1
  funext p
  exact p.placed_translate d

theorem indexOf?_translate (name : String) : (t.translate d).indexOf? name = t.indexOf? name := by
  rw [indexOf?, translate, Array.findIdx?_map]
  rfl

theorem partner_translate (i : Nat) :
    (t.translate d).partner i = (t.partner i).mapError (·.translate d) := by
  have hindex : ∀ name, (t.translate d).indexOf name = t.indexOf name := fun name => by
    rw [indexOf, indexOf?_translate, indexOf]
  rw [partner, pin_translate, partner]
  cases hpin : t.pin i with
  | error f => rfl
  | ok p =>
    simp only [Except.map, mapError_ok, bind, Except.bind, hindex]
    have hmirrors : (t.translate d).mirrors = t.mirrors := rfl
    have hname : (p.translate d).name = p.name := rfl
    rw [hmirrors, hname]
    cases t.mirrors.lookup p.name with
    | none => rfl
    | some name =>
      simp only [indexOf]
      cases t.indexOf? name <;> rfl

@[simp] theorem unplaced_translate : (t.translate d).unplaced = t.unplaced := by
  have hplaced : (!Pin.placed ·) ∘ (Pin.translate · d) = (!Pin.placed ·) :=
    funext fun p => congrArg Bool.not (p.placed_translate d)
  rw [unplaced, translate, Array.toList_map, List.filter_map, hplaced, List.map_map, unplaced]
  rfl

theorem place_translate (i : Nat) (spot : Spot) :
    (t.translate d).place i (spot.translate d) = (t.place i spot).translate d := by
  simp only [place, translate, PinTable.mk.injEq, and_true]
  exact modify_map t.pins i fun _ => rfl

end PinTable

namespace Board

variable (b : Board) (d : Point)

theorem block_translate (slot : Nat) : (b.translate d).block slot = (b.block slot).translate d := by
  rw [block, block]
  exact congrArg (Board.mk · _ _) (b.boundary.block_translate d slot)

end Board

end PinRing
