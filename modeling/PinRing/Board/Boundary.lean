import PinRing.Fault
import PinRing.Geometry.Core

/-! The slots along the boundary of the core, in boundary order.  A slot is addressed by its index.
Slots are only ever taken out of use: the flags `used` and `blocked` are set and never cleared. -/

namespace PinRing

/-- A position and layer on which one pin may sit. -/
structure Slot where
  pos : Point
  layer : Int
  edge : Edge
  /-- The slot may not be used at all. -/
  blocked : Bool := false
  /-- The slot carries a pin. -/
  used : Bool := false
deriving DecidableEq

/-- A pin may be put on the slot. -/
def Slot.available (s : Slot) : Bool :=
  !s.blocked && !s.used

/-- A maximal stretch of neighbouring slots on one edge: the slots from `first` up to, but not
including, `stop`. -/
structure EdgeRun where
  edge : Edge
  first : Nat
  stop : Nat
deriving DecidableEq

/-- The slots in boundary order. -/
structure Boundary where
  slots : Array Slot

namespace Boundary

def size (b : Boundary) : Nat := b.slots.size

def slot (b : Boundary) (i : Nat) : Except Fault Slot :=
  match b.slots[i]? with
  | some s => .ok s
  | none => .error .outOfRange

def isAvailable (b : Boundary) (i : Nat) : Bool :=
  (b.slots[i]?).any (·.available)

/-- The available slots from `first` up to `stop`, in order. -/
def free (b : Boundary) (first stop : Nat) : List Nat :=
  (List.range' first (min stop b.size - first)).filter b.isAvailable

def countFree (b : Boundary) (first stop : Nat) : Nat :=
  (b.free first stop).length

/-- The first slot at exactly this position and layer. -/
def slotAt? (b : Boundary) (pos : Point) (layer : Int) : Option Nat :=
  b.slots.findIdx? fun s => s.pos == pos && s.layer == layer

def use (b : Boundary) (i : Nat) : Boundary :=
  { slots := b.slots.modify i ({ · with used := true }) }

/-- Takes a slot out of use. -/
def block (b : Boundary) (i : Nat) : Boundary :=
  { slots := b.slots.modify i ({ · with blocked := true }) }

/-- `use`, for an index that may lie past the end. -/
def markUsed (b : Boundary) (i : Nat) : Except Fault Boundary :=
  if i < b.size then .ok (b.use i) else .error .outOfRange

/-- `block`, for an index that may lie past the end. -/
def markBlocked (b : Boundary) (i : Nat) : Except Fault Boundary :=
  if i < b.size then .ok (b.block i) else .error .outOfRange

/-- The indices of the slots that satisfy `p`. -/
def indicesOf (b : Boundary) (p : Slot → Bool) : List Nat :=
  (List.range b.size).filter fun i => (b.slots[i]?).any p

/-- The runs of a list of edges whose first member has index `i`. -/
def runsFrom (i : Nat) : List Edge → List EdgeRun
  | [] => []
  | e :: es =>
    match runsFrom (i + 1) es with
    | [] => [⟨e, i, i + 1⟩]
    | r :: rs => if r.edge = e then { r with first := i } :: rs else ⟨e, i, i + 1⟩ :: r :: rs

/-- The maximal runs of neighbouring slots with the same edge, in order. -/
def edgeRuns (b : Boundary) : List EdgeRun :=
  runsFrom 0 (b.slots.toList.map (·.edge))

@[simp] theorem size_use (b : Boundary) (i : Nat) : (b.use i).size = b.size := by
  simp [size, use]

@[simp] theorem size_block (b : Boundary) (i : Nat) : (b.block i).size = b.size := by
  simp [size, block]

theorem mem_free {b : Boundary} {first stop i : Nat} :
    i ∈ b.free first stop ↔ first ≤ i ∧ i < stop ∧ b.isAvailable i := by
  have inside : b.isAvailable i → i < b.size := by
    intro h
    by_cases hi : i < b.size
    · exact hi
    · simp [isAvailable, Array.getElem?_eq_none (Nat.le_of_not_lt hi)] at h
  simp only [free, List.mem_filter, List.mem_range'_1]
  constructor
  · rintro ⟨⟨h1, h2⟩, h3⟩
    exact ⟨h1, by omega, h3⟩
  · rintro ⟨h1, h2, h3⟩
    have := inside h3
    exact ⟨⟨h1, by omega⟩, h3⟩

theorem isAvailable_use (b : Boundary) (i j : Nat) :
    (b.use i).isAvailable j = (b.isAvailable j && decide (i ≠ j)) := by
  by_cases h : i = j <;> cases hj : b.slots[j]? <;>
    simp [isAvailable, use, Array.getElem?_modify, Slot.available, h, hj]

theorem isAvailable_block (b : Boundary) (i j : Nat) :
    (b.block i).isAvailable j = (b.isAvailable j && decide (i ≠ j)) := by
  by_cases h : i = j <;> cases hj : b.slots[j]? <;>
    simp [isAvailable, block, Array.getElem?_modify, Slot.available, h, hj]

end Boundary

end PinRing
