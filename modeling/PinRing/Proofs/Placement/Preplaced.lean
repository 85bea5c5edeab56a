import PinRing.Proofs.Placement.Run
import PinRing.Proofs.Placement.Seating

/-! What a run does to pins that have a place already.  The mirrored and the regular pass look for
pins without a place only.  The group pass does not look: it lays out every group that was handed to
a section, and only groups all of whose members have a place are not handed out. -/

namespace PinRing

open Board

theorem Board.Moves.spotOf_of_isPlaced {reflection : Option Reflection} {scope : Scope} {b : Board}
    {cs : List Commit} (h : Moves reflection scope b cs) {i : Nat} (hi : b.pins.isPlaced i)
    (hgroups : ∀ g, scope.groups g → i ∉ g.members) : (b.takeAll cs).spotOf i = b.spotOf i := by
  induction h with
  | nil b => rfl
  | @cons b cs ds head tail ih =>
    have hout : i ∉ cs.map (·.pin) := by
      intro hmem
      rcases head.cases_of_mem hmem with ⟨-, hnot⟩ | ⟨_, _, -, -, -, hnot⟩ | ⟨g, hg, hmem⟩
      · exact hnot hi
      · exact hnot hi
      · exact hgroups g hg hmem
    have hi' : (b.takeAll cs).pins.isPlaced i := (head.isOpen.isPlaced i).mpr (.inl hi)
    rw [takeAll_append, ih hi', head.isOpen.spotOf_of_notMem hout]

/-- A pin that had a place before a run keeps it, however the run ends, if all pins of its groups
had a place as well. -/
theorem run_keeps_spots (board : Board) (model : CostModel) (reflection : Option Reflection)
    (config : Config) {i : Nat} (hplaced : board.pins.isPlaced i)
    (hgroups : ∀ g ∈ board.pins.groups, i ∈ g.members → ∀ j ∈ g.members, board.pins.isPlaced j) :
    (run board model reflection config).state.1.spotOf i = board.spotOf i := by
  let scope : Scope :=
    { pins := fun _ _ => True
      groups := fun g => g ∈ board.pins.groups ∧ g.members.all board.pins.isPlaced = false }
  obtain ⟨cs, hmoves, hboard, -⟩ := run_moves_within board model reflection config scope
    fun hdistribute s hs =>
      ⟨fun _ _ _ _ _ => trivial, Distribution.given_distribute hdistribute s hs⟩
  rw [hboard]
  refine hmoves.spotOf_of_isPlaced hplaced fun g hg hi => ?_
  have hall := List.all_eq_true.mpr (hgroups g hg.1 hi)
  rw [hg.2] at hall
  cases hall

/-- Four bottom slots for a pair of grouped pins, of which `placed` have a place, each on the slot
of its number. -/
def rowOfFour (placed : List Nat) : Board :=
  let spot (k : Nat) : Spot := ⟨⟨10 * (k + 1), 0⟩, 1⟩
  let slot (k : Nat) : Slot :=
    { pos := (spot k).pos, layer := 1, edge := .bottom, used := placed.contains k }
  let pin (name : String) (k : Nat) : Pin :=
    { name, grouped := true, spot := if placed.contains k then some (spot k) else none }
  { boundary := { slots := #[slot 0, slot 1, slot 2, slot 3] }
    pins :=
      { pins := #[pin "d0" 0, pin "d1" 1]
        groups := [{ members := [0, 1], name := "bus" }] } }

theorem run_keeps_spots_rowOfFour :
    let board := rowOfFour [0, 1]
    let config : Config := { usageFactor := { mantissa := 1, scale := 0 } }
    let ended := run board (.linear 0 0 0) none config
    (∀ i ∈ [0, 1], board.pins.isPlaced i) ∧ ended.state.1.spotOf 0 = some ⟨⟨10, 0⟩, 1⟩ ∧
      ended.state.1.spotOf 1 = some ⟨⟨20, 0⟩, 1⟩ := by
  intro board config ended
  have hgroups : ∀ g ∈ board.pins.groups, ∀ j ∈ g.members, board.pins.isPlaced j := by decide
  have hkeeps : ∀ i, board.pins.isPlaced i → ended.state.1.spotOf i = board.spotOf i :=
    fun i hi => run_keeps_spots board (.linear 0 0 0) none config hi fun g hg _ => hgroups g hg
  exact ⟨by decide, (hkeeps 0 (by decide)).trans (by decide),
    (hkeeps 1 (by decide)).trans (by decide)⟩

/-- A placed pin whose group is not all placed is laid out with it, here two slots further on. -/
theorem run_moves_grouped_pin :
    let board := rowOfFour [0]
    let ended := run board (.linear 0 0 0) none { usageFactor := { mantissa := 1, scale := 0 } }
    board.pins.isPlaced 0 ∧ board.boundary.isUsed 0 ∧ board.spotOf 0 = some ⟨⟨10, 0⟩, 1⟩ ∧
      ended.state.1.spotOf 0 = some ⟨⟨30, 0⟩, 1⟩ := by
  decide +kernel

end PinRing
