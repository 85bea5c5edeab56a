import PinRing.Outcome

/-! The pins to be placed, the groups that keep neighbouring slots, and the mirror pairs.  Pins are
addressed by index and have distinct names; the mirror map is kept by name, in the order in which
its keys were first written. -/

namespace PinRing

/-- Where a pin sits. -/
structure Spot where
  pos : Point
  layer : Int
deriving DecidableEq

/-- A pin of the chip. -/
structure Pin where
  name : String
  spot : Option Spot := none
  grouped : Bool := false
deriving DecidableEq

def Pin.placed (p : Pin) : Bool := p.spot.isSome

/-- Pins that take consecutive slots in the given order.  On the top and left edges an `ordered`
group runs against the slot order, so that it reads the same way all around the core. -/
structure PinGroup where
  members : List Nat
  ordered : Bool := false
  name : String
deriving DecidableEq

def PinGroup.size (g : PinGroup) : Nat := g.members.length

/-- The pins with their groups and mirror pairs. -/
structure PinTable where
  pins : Array Pin := #[]
  groups : List PinGroup := []
  /-- Each mirrored pin with its partner. -/
  mirrors : List (String × String) := []

namespace PinTable

def size (t : PinTable) : Nat := t.pins.size

def pin (t : PinTable) (i : Nat) : Except Fault Pin :=
  match t.pins[i]? with
  | some p => .ok p
  | none => .error .outOfRange

/-- The index of the pin of a given name, if there is one. -/
def indexOf? (t : PinTable) (name : String) : Option Nat :=
  t.pins.findIdx? (·.name == name)

def indexOf (t : PinTable) (name : String) : Except Fault Nat :=
  match t.indexOf? name with
  | some i => .ok i
  | none => .error (.unknownPin name)

/-- Adds a pin under a new name and answers with its index. -/
def addPin (t : PinTable) (name : String) : Outcome PinTable Nat :=
  match t.indexOf? name with
  | some _ => .stop t (.duplicatePin name)
  | none => .done { t with pins := t.pins.push { name } } t.pins.size

/-- Marks one pin as grouped. -/
def claim (t : PinTable) (i : Nat) : Outcome PinTable Unit :=
  match t.pins[i]? with
  | none => .stop t .outOfRange
  | some p =>
    if p.grouped then
      .stop t (.alreadyGrouped p.name)
    else
      .done { t with pins := t.pins.modify i ({ · with grouped := true }) } ()

/-- Registers a group of pins by name.  All names are looked up before any pin is marked; the pins
are then marked in order, up to the first that is in a group already.  A group without a name is
called after its position. -/
def addGroup (t : PinTable) (names : List String) (ordered : Bool) (name : String) :
    Outcome PinTable PinGroup :=
  match names.mapM t.indexOf with
  | .error f => .stop t f
  | .ok members =>
    (Outcome.forEach claim t members).andThen fun t _ =>
      let group : PinGroup :=
        { members, ordered, name := if name = "" then s!"group{t.groups.length}" else name }
      .done { t with groups := t.groups ++ [group] } group

/-- Writes one entry of an association list.  A key that is present keeps its position. -/
def assign (key value : String) : List (String × String) → List (String × String)
  | [] => [(key, value)]
  | (k, v) :: rest => if k = key then (k, value) :: rest else (k, v) :: assign key value rest

/-- Declares two pins to be each other's mirror images. -/
def addMirror (t : PinTable) (name partner : String) : Outcome PinTable Unit :=
  match t.indexOf name, t.indexOf partner with
  | .error f, _ => .stop t f
  | .ok _, .error f => .stop t f
  | .ok _, .ok _ =>
    if name = partner then
      .stop t (.selfMirror name)
    else
      .done { t with mirrors := assign partner name (assign name partner t.mirrors) } ()

def isMirrored (t : PinTable) (name : String) : Bool :=
  (t.mirrors.lookup name).isSome

/-- The index of the partner of a pin, if it is mirrored. -/
def partner (t : PinTable) (i : Nat) : Except Fault (Option Nat) := do
  let p ← t.pin i
  match t.mirrors.lookup p.name with
  | none => pure none
  | some name => some <$> t.indexOf name

def place (t : PinTable) (i : Nat) (spot : Spot) : PinTable :=
  { t with pins := t.pins.modify i ({ · with spot := some spot }) }

/-- Whether a pin is placed; an index past the end counts as not placed. -/
def isPlaced (t : PinTable) (i : Nat) : Bool :=
  (t.pins[i]?).any Pin.placed

/-- The names of the pins without a place, in table order. -/
def unplaced (t : PinTable) : List String :=
  (t.pins.toList.filter (!·.placed)).map (·.name)

def indicesOf (t : PinTable) (p : Pin → Bool) : List Nat :=
  (List.range t.size).filter fun i => (t.pins[i]?).any p

/-- The last value written under a key is found there; other keys keep theirs. -/
theorem lookup_assign (key value other : String) (entries : List (String × String)) :
    (assign key value entries).lookup other =
      if other = key then some value else entries.lookup other := by
  induction entries with
  | nil =>
    by_cases h : other = key
    · simp [assign, h]
    · have : (other == key) = false := by simpa using h
      simp [assign, List.lookup_cons, h, this]
  | cons e rest ih =>
    obtain ⟨k, v⟩ := e
    by_cases hk : k = key
    · subst hk
      by_cases h : other = k
      · simp [assign, h]
      · have : (other == k) = false := by simpa using h
        simp [assign, List.lookup_cons, h, this]
    · by_cases h : other = k
      · subst h
        simp [assign, hk]
      · have : (other == k) = false := by simpa using h
        simp [assign, List.lookup_cons, hk, this, ih]

@[simp] theorem size_place (t : PinTable) (i : Nat) (spot : Spot) :
    (t.place i spot).size = t.size := by
  simp [size, place]

theorem isPlaced_place (t : PinTable) (i j : Nat) (spot : Spot) :
    (t.place i spot).isPlaced j = (t.isPlaced j || (decide (i = j) && decide (j < t.size))) := by
  by_cases h : i = j
  · subst h
    by_cases hi : i < t.pins.size <;>
      simp [isPlaced, place, size, Array.getElem_modify, Pin.placed, hi]
  · simp [isPlaced, place, Array.getElem?_modify, h]

end PinTable

/-- One entry of a table's description. -/
inductive Declaration where
  | pin (name : String)
  | group (names : List String) (ordered : Bool) (name : String)
  | mirror (name partner : String)

/-- Carries out one declaration. -/
def PinTable.declare (t : PinTable) : Declaration → Outcome PinTable Unit
  | .pin name => (t.addPin name).mapAnswer fun _ => ()
  | .group names ordered name => (t.addGroup names ordered name).mapAnswer fun _ => ()
  | .mirror name partner => t.addMirror name partner

end PinRing
