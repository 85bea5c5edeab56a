import PinRing.Placement.PinPass

/-! The review of a placement: every placed pin on a slot of its own, mirror pairs reflected onto
each other, groups on consecutive slots.  Pins without a place and incomplete groups are
warnings; everything else is an error. -/

namespace PinRing

/-- What an issue is about. -/
inductive Topic where
  | slot
  | mirror
  | group
  | coverage
deriving DecidableEq

def Topic.name : Topic → String
  | slot => "slot"
  | mirror => "mirror"
  | group => "group"
  | coverage => "coverage"

/-- One finding of a review. -/
structure Issue where
  severity : Severity
  topic : Topic
  message : String
  /-- The pin or group concerned. -/
  subject : String
deriving DecidableEq

namespace Review

/-- The slot under a placed pin. -/
def slotOf (board : Board) (pin : Nat) : Option Nat :=
  (board.pins.pins[pin]?).bind fun p => p.spot.bind fun s => board.boundary.slotAt? s.pos s.layer

/-- The issues of one pin that sits on a slot, of which `owner` is the pin met there before. -/
def slotIssues (board : Board) (blockedBefore : List Nat) (name : String) (slot : Nat)
    (owner : Option String) : List Issue :=
  (match owner with
    | some other => [⟨.error, .slot, s!"Pins {other} and {name} share slot {slot}", name⟩]
    | none => []) ++
  (if (board.boundary.slots[slot]?).any (·.used) then []
    else [⟨.error, .slot, s!"Slot {slot} holds pin {name} but is not marked used", name⟩]) ++
  (if blockedBefore.contains slot then
      [⟨.error, .slot, s!"Pin {name} was placed on blocked slot {slot}", name⟩]
    else [])

/-- The issues of the pins in order; `owners` holds the pin met last on each slot. -/
def checkSlots (board : Board) (blockedBefore : List Nat) (owners : List (Nat × String)) :
    List Pin → Except Fault (List Issue)
  | [] => .ok []
  | p :: rest =>
    match p.spot with
    | none => checkSlots board blockedBefore owners rest
    | some s =>
      match board.boundary.slotAt? s.pos s.layer with
      | none => do
        let position ← written s.pos.text?
        let layer ← written (Text.decimal? s.layer)
        let others ← checkSlots board blockedBefore owners rest
        return ⟨.error, .slot, s!"Pin {p.name} at {position} layer {layer} is not on a slot",
          p.name⟩ :: others
      | some slot => do
        let others ← checkSlots board blockedBefore ((slot, p.name) :: owners) rest
        return slotIssues board blockedBefore p.name slot (owners.lookup slot) ++ others

/-- The mirror pairs in the order of the mirror map, each in the direction in which it comes up
first. -/
def mirrorPairs (seen : List (String × String)) :
    List (String × String) → List (String × String)
  | [] => []
  | (a, b) :: rest =>
    if seen.contains (a, b) || seen.contains (b, a) then mirrorPairs seen rest
    else (a, b) :: mirrorPairs ((a, b) :: seen) rest

/-- The issues of one mirror pair. -/
def checkPair (board : Board) (reflect : Reflection) (pair : String × String) :
    Except Fault (List Issue) := do
  let p ← board.pins.pin (← board.pins.indexOf pair.1)
  let q ← board.pins.pin (← board.pins.indexOf pair.2)
  match p.spot, q.spot with
  | none, none => return []
  | some _, none =>
    return [⟨.error, .mirror, s!"Pin {p.name} is placed but its mirror partner is not", p.name⟩]
  | none, some _ =>
    return [⟨.error, .mirror, s!"Pin {q.name} is placed but its mirror partner is not", q.name⟩]
  | some s, some t =>
    let image ← reflect s.pos
    if image.point? ≠ some t.pos ∨ t.layer ≠ s.layer then
      let found ← written t.pos.text?
      let origin ← written s.pos.text?
      return [⟨.error, .mirror,
        s!"Pin {q.name} at {found} is not the mirror of {p.name} at {origin}", q.name⟩]
    return []

/-- The issues of all mirror pairs; without a reflection there are none. -/
def checkMirrors (board : Board) (reflection : Option Reflection) : Except Fault (List Issue) :=
  match reflection with
  | none => .ok []
  | some reflect =>
    ((mirrorPairs [] board.pins.mirrors).mapM (checkPair board reflect)).map List.flatten

/-- The slots go up by one from member to member. -/
def ascends : List Nat → Bool
  | a :: b :: rest => b == a + 1 && ascends (b :: rest)
  | _ => true

/-- The slots go down by one from member to member. -/
def descends : List Nat → Bool
  | a :: b :: rest => a == b + 1 && descends (b :: rest)
  | _ => true

/-- The written form of a list of slots, such as `[4, 6]`. -/
def slotList (slots : List Nat) : String :=
  "[" ++ ", ".intercalate (slots.map toString) ++ "]"

/-- The issues of one group.  A group without members is a fault. -/
def checkGroup (board : Board) (g : PinGroup) : Except Fault (List Issue) :=
  match g.members.mapM (slotOf board) with
  | none => .ok [⟨.warning, .group, s!"Pin group {g.name} is not fully placed", g.name⟩]
  | some [] => .error .outOfRange
  | some slots =>
    if ascends slots || descends slots then .ok []
    else
      .ok [⟨.error, .group, s!"Pin group {g.name} is not on consecutive slots: {slotList slots}",
        g.name⟩]

def checkGroups (board : Board) : Except Fault (List Issue) :=
  (board.pins.groups.mapM (checkGroup board)).map List.flatten

/-- The pins without a place. -/
def checkCoverage (board : Board) : List Issue :=
  board.pins.unplaced.map fun name => ⟨.warning, .coverage, s!"Pin {name} is not placed", name⟩

end Review

/-- All issues of a placement: those of slots, of mirror pairs, of groups, and of pins without a
place. -/
def review (board : Board) (reflection : Option Reflection) (blockedBefore : List Nat) :
    Except Fault (List Issue) := do
  let slots ← Review.checkSlots board blockedBefore [] board.pins.pins.toList
  let mirrors ← Review.checkMirrors board reflection
  let groups ← Review.checkGroups board
  return slots ++ mirrors ++ groups ++ Review.checkCoverage board

/-- A placement passes if no issue is an error. -/
def passes (issues : List Issue) : Bool :=
  issues.all (·.severity != .error)

end PinRing
