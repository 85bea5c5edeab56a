import PinRing.Board.Section

/-! The board: the slots, the pins, and the history of the placements made on it. -/

namespace PinRing

/-- What a commit belongs to: the placement of a mirror pair, of a pin by itself, or of a group. -/
inductive Origin where
  | pair
  | single
  | group
deriving DecidableEq

/-- A pin put on a slot. -/
structure Commit where
  pin : Nat
  slot : Nat
  origin : Origin
deriving DecidableEq

/-- The slots and pins that placements work on. -/
structure Board where
  boundary : Boundary
  pins : PinTable
  /-- Every commit made so far, oldest first. -/
  journal : List Commit := []

namespace Board

/-- Puts a pin on a slot: the pin takes the slot's position and layer, and the slot is used. -/
def commit (b : Board) (c : Commit) : Outcome Board Unit :=
  match b.boundary.slots[c.slot]?, b.pins.pins[c.pin]? with
  | some slot, some _ =>
    .done
      { boundary := b.boundary.use c.slot
        pins := b.pins.place c.pin ⟨slot.pos, slot.layer⟩
        journal := b.journal ++ [c] } ()
  | _, _ => .stop b .outOfRange

/-- Puts a pin on a spot that need not be a slot. -/
def placeAt (b : Board) (pin : Nat) (spot : Spot) : Board :=
  { b with pins := b.pins.place pin spot }

/-- `placeAt`, for a pin that may lie past the end. -/
def place (b : Board) (pin : Nat) (spot : Spot) : Outcome Board Unit :=
  if pin < b.pins.size then .done (b.placeAt pin spot) () else .stop b .outOfRange

/-- Takes a slot out of use. -/
def block (b : Board) (slot : Nat) : Board :=
  { b with boundary := b.boundary.block slot }

end Board

end PinRing
