import PinRing.Proofs.Board.Takes
import PinRing.Proofs.Placement.Matching
import PinRing.Proofs.Placement.Priced

/-! Matching the pins of a section and committing them at once: as many pins as possible are placed,
and no other placement of as many is better. -/

namespace PinRing

open PinPass

namespace Board

/-- `after` is `before` with some pins on slots: these pins have the spots of their slots, these
slots are used, and nothing else has changed. -/
structure Receives (before after : Board) (ps : List (Nat × Nat)) : Prop where
  seated : ∀ p ∈ ps, ∃ pin s, before.pins.pins[p.1]? = some pin ∧
    before.boundary.slots[p.2]? = some s ∧
    after.pins.pins[p.1]? = some { pin with spot := some ⟨s.pos, s.layer⟩ }
  others : ∀ i : Nat, i ∉ ps.map Prod.fst → after.pins.pins[i]? = before.pins.pins[i]?
  slots : ∀ i : Nat, after.boundary.slots[i]? = (before.boundary.slots[i]?).map fun s =>
    if i ∈ ps.map Prod.snd then { s with used := true } else s
  groups : after.pins.groups = before.pins.groups
  mirrors : after.pins.mirrors = before.pins.mirrors
  journal : after.journal = before.journal ++ singles ps

theorem Open.receives {b : Board} {ps : List (Nat × Nat)} (h : b.Open (singles ps))
    (hpins : (ps.map Prod.fst).Nodup) : Receives b (b.takeAll (singles ps)) ps := by
  have hfst : (singles ps).map (·.pin) = ps.map Prod.fst := by simp [singles]
  have hsnd : (singles ps).map (·.slot) = ps.map Prod.snd := by simp [singles]
  have hsingle : ∀ c ∈ singles ps, c.origin = .single := by
    intro c hc
    obtain ⟨p, -, rfl⟩ := List.mem_map.mp hc
    rfl
  have htakes := h.takes hsingle (hfst ▸ hpins)
  constructor
  · exact fun p hp => htakes.seated _ (List.mem_map_of_mem hp)
  · exact fun i hi => htakes.others i (hfst ▸ hi)
  · intro i
    have hslots := htakes.slots i
    rw [hsnd] at hslots
    simpa [Slot.taken] using hslots
  · exact htakes.groups
  · exact htakes.mirrors
  · exact htakes.journal

end Board

namespace Matching

variable {m : Matching} {board : Board} {price : Nat → Nat → Cost}

/-- The pins of the section that are neither placed nor in a group nor mirrored. -/
def openPins (m : Matching) (board : Board) : List Nat :=
  m.sec.pins.filter fun i => (board.pins.pins[i]?).any fun p =>
    !p.placed && !p.grouped && !board.pins.isMirrored p.name

/-- The available slots of the section that are not reserved. -/
def openSlots (m : Matching) (board : Board) : List Nat :=
  (board.boundary.free m.sec.first m.sec.stop).filter (!m.reserved.contains ·)

theorem openPins_nodup (board : Board) (h : m.sec.pins.Nodup) : (m.openPins board).Nodup :=
  h.filter _

theorem openSlots_nodup (m : Matching) (board : Board) : (m.openSlots board).Nodup := by
  have hrange :
      (List.range' m.sec.first (min m.sec.stop board.boundary.size - m.sec.first)).Nodup :=
      List.nodup_range'
  exact (hrange.filter _).filter _

theorem isAvailable_of_mem_openSlots {slot : Nat} (h : slot ∈ m.openSlots board) :
    board.boundary.isAvailable slot :=
  (Boundary.mem_free.mp (List.mem_of_mem_filter h)).2.2

theorem pin_of_mem_openPins {i : Nat} (h : i ∈ m.openPins board) :
    ∃ p, board.pins.pin i = .ok p ∧ p.placed = false ∧ board.pins.partner i = .ok none := by
  obtain ⟨p, hp, hopen⟩ := (Option.any_eq_true _ _).mp (List.mem_filter.mp h).2
  simp only [Bool.and_eq_true, Bool.not_eq_true'] at hopen
  obtain ⟨⟨hplaced, -⟩, hmirrored⟩ := hopen
  have hpin := PinTable.pin_eq_ok.mpr hp
  have hlookup : board.pins.mirrors.lookup p.name = none := by
    rwa [PinTable.isMirrored, Option.isSome_eq_false_iff, Option.isNone_iff_eq_none] at hmirrored
  refine ⟨p, hpin, hplaced, ?_⟩
  simp only [PinTable.partner, hpin, Bind.bind, Except.bind, hlookup]
  rfl

theorem regular_priced (m : Matching) (board : Board) (price : Nat → Nat → Cost) :
    Regular board (.priced price (m.openPins board) (m.openSlots board)) price where
  pin := fun _ hi => pin_of_mem_openPins hi
  free := fun _ hslot => isAvailable_of_mem_openSlots hslot
  cell := fun _ _ _ _ hslot hpin => cell_priced hslot hpin

/-- The matrix of the regular pass, when the model prices every choice. -/
theorem pinMatrix_openPins (hpins : ∀ i ∈ m.sec.pins, i < board.pins.size)
    (hprice : ∀ pin ∈ m.openPins board, ∀ slot ∈ m.openSlots board, ∀ s,
      board.boundary.slots[slot]? = some s → m.model pin s.pos = .ok (price pin slot)) :
    m.sec.pinMatrix board.boundary board.pins m.model
        { skipPlaced := true, skipMirrored := true, reserved := m.reserved } =
      .ok (if (m.openSlots board).isEmpty || (m.openPins board).isEmpty then
          { columns := m.openPins board }
        else .priced price (m.openPins board) (m.openSlots board)) := by
  refine Section.pinMatrix_eq_ok (Section.openPins_eq_ok.mpr ⟨hpins, ?_⟩) rfl hprice
  refine List.filter_congr fun i _ => ?_
  cases board.pins.pins[i]? with
  | none => rfl
  | some p =>
    simp only [Option.any_some, PinFilter.admits, Bool.true_and]
    rw [Bool.and_comm (!p.placed)]

theorem open_singles {ps : List (Nat × Nat)}
    (h : Placement (m.openPins board) (m.openSlots board) ps) : board.Open (singles ps) where
  slots_nodup := by
    simpa [singles, List.map_map, Function.comp_def] using h.slots_nodup
  admits := by
    intro c hc
    obtain ⟨p, hp, rfl⟩ := List.mem_map.mp hc
    obtain ⟨pin, hpin, -⟩ := pin_of_mem_openPins (h.pin_mem p hp)
    exact ⟨PinTable.lt_of_pin hpin, isAvailable_of_mem_openSlots (h.slot_mem p hp)⟩

/-- The pass puts as many of the open pins as possible on open slots of their own, changes nothing
else, and reports their costs. -/
structure Fills (m : Matching) (board : Board) (price : Nat → Nat → Cost)
    (placed : Outcome Board PassResult) (ps : List (Nat × Nat)) : Prop where
  placement : Placement (m.openPins board) (m.openSlots board) ps
  length_eq : ps.length = min (m.openPins board).length (m.openSlots board).length
  receives : board.Receives placed.state ps
  answer : ∃ result, placed.answer = .ok result ∧ result.commits = singles ps ∧
    result.warnings.length = Cost.infeasibleCount (costs price ps) ∧
    result.cost = Cost.feasibleSum (costs price ps)

/-- Pins that are matched and committed at once fill the open slots, at least total weight. -/
theorem commitPins_fills (hnodup : m.sec.pins.Nodup) (hpins : ∀ i ∈ m.sec.pins, i < board.pins.size)
    (hprice : ∀ pin ∈ m.openPins board, ∀ slot ∈ m.openSlots board, ∀ s,
      board.boundary.slots[slot]? = some s → m.model pin s.pos = .ok (price pin slot)) :
    let found := m.findPins board false
    found.answer = .ok () ∧
      ∃ ps, m.Fills board price (found.state.commitPins board false) ps ∧
        ∀ other, Placement (m.openPins board) (m.openSlots board) other →
          other.length = min (m.openPins board).length (m.openSlots board).length →
          ((costs price ps).map Cost.weight).sum ≤ ((costs price other).map Cost.weight).sum := by
  intro found
  have hmatrix := pinMatrix_openPins hpins hprice
  by_cases hempty : ((m.openSlots board).isEmpty || (m.openPins board).isEmpty) = true
  · -- Nothing can be placed, and the solver is not asked.
    rw [if_pos hempty] at hmatrix
    have hsize : min (m.openPins board).length (m.openSlots board).length = 0 := by
      rcases Bool.or_eq_true_iff.mp hempty with hempty | hempty
      · rw [List.isEmpty_iff.mp hempty, List.length_nil, Nat.min_zero]
      · rw [List.isEmpty_iff.mp hempty, List.length_nil, Nat.zero_min]
    have hnone : CostMatrix.empty { columns := m.openPins board } = true := rfl
    have hfound : found.answer = .ok () ∧
        found.state = { m with matrix := { columns := m.openPins board }, assignment := [] } := by
      simp [found, findPins, hmatrix, adopt, solved, hnone]
    have hpass : (found.state.commitPins board false).answer = .ok {} ∧
        (found.state.commitPins board false).state = board := by
      rw [hfound.2]
      exact ⟨rfl, rfl⟩
    have hplacement : Placement (m.openPins board) (m.openSlots board) [] :=
      ⟨.nil, .nil, by simp, by simp⟩
    refine ⟨hfound.1, [], ⟨hplacement, hsize.symm, ?_, ?_⟩, fun other _ hother => ?_⟩
    · have hreceives : board.Receives (board.takeAll (singles [])) [] :=
        (Board.Open.nil board).receives .nil
      rwa [hpass.2]
    · exact ⟨{}, hpass.1, rfl, rfl, rfl⟩
    · rw [hsize, List.length_eq_zero_iff] at hother
      rw [hother]
  · rw [if_neg hempty] at hmatrix
    have hne : (CostMatrix.priced price (m.openPins board) (m.openSlots board)).empty = false := by
      simpa [CostMatrix.empty, CostMatrix.rows, CostMatrix.cols, CostMatrix.priced] using hempty
    have hpinsNe : m.openPins board ≠ [] := fun hnil => hempty (by simp [hnil])
    obtain ⟨a, ha⟩ := exists_solution price (openPins_nodup board hnodup) (m.openSlots_nodup board)
      hpinsNe
    have hfound : found.answer = .ok () ∧ found.state =
        { m with
          matrix := .priced price (m.openPins board) (m.openSlots board), assignment := a } := by
      simp only [found, findPins, Bool.not_false, hmatrix, adopt, ha.solved, and_self]
    have hopen := open_singles ha.placement
    have hmode : ({ mirrored := false, strict := m.strict, reflection := m.reflection } :
      Mode).mirrored = false := rfl
    obtain ⟨result, hanswer, hstate, hcommits, hcost, hwarnings⟩ :=
      (regular_priced m board price).run_eq hmode hne (fun _ _ => ha.row_lt)
        ha.placement.pins_nodup ha.placement.slots_nodup hopen
    obtain ⟨hpassState, hpassAnswer⟩ := found.state.commitPins_eq board false
    rw [hfound.2] at hpassState hpassAnswer
    refine ⟨hfound.1, _,
      ⟨ha.placement, ha.length_eq, ?_, result, ?_, hcommits, hwarnings, hcost⟩, ha.least⟩
    · rw [hfound.2, hpassState, hstate]
      exact hopen.receives ha.placement.pins_nodup
    · rw [hfound.2, hpassAnswer, hanswer]

/-- Where feasible costs are small against the weight of an infeasible choice, pins that are matched
and committed at once have the fewest infeasible choices, and then the least cost, of all placements
of as many of the open pins. -/
theorem commitPins_optimal (hnodup : m.sec.pins.Nodup)
    (hpins : ∀ i ∈ m.sec.pins, i < board.pins.size)
    (hprice : ∀ pin ∈ m.openPins board, ∀ slot ∈ m.openSlots board, ∀ s,
      board.boundary.slots[slot]? = some s → m.model pin s.pos = .ok (price pin slot)) :
    let found := m.findPins board false
    found.answer = .ok () ∧
      ∃ ps, m.Fills board price (found.state.commitPins board false) ps ∧
        ∀ bound : Int,
          (∀ pin ∈ m.openPins board, ∀ slot ∈ m.openSlots board, ∀ v,
            price pin slot = .finite v → 0 ≤ v ∧ v ≤ bound) →
          ↑(min (m.openPins board).length (m.openSlots board).length) * bound < Cost.sentinel →
          ∀ other, Placement (m.openPins board) (m.openSlots board) other →
            other.length = min (m.openPins board).length (m.openSlots board).length →
            Cost.NoWorse (costs price ps) (costs price other) := by
  intro found
  obtain ⟨hfound, ps, hfills, hleast⟩ := commitPins_fills hnodup hpins hprice
  refine ⟨hfound, ps, hfills, fun bound hbound hsmall other hother hsize => ?_⟩
  have hvalue : ∀ qs, Placement (m.openPins board) (m.openSlots board) qs →
      ∀ v, .finite v ∈ costs price qs → 0 ≤ v ∧ v ≤ bound := by
    intro qs hqs v hv
    obtain ⟨q, hq, hprice⟩ := List.mem_map.mp hv
    exact hbound q.1 (hqs.pin_mem q hq) q.2 (hqs.slot_mem q hq) v hprice
  refine Cost.noWorse_of_sum_le (hleast other hother hsize) ?_ ?_
  · exact Cost.feasibleSum_nonneg fun v hv => (hvalue ps hfills.placement v hv).1
  · refine Cost.feasibleSum_lt (fun v hv => (hvalue other hother v hv).2) ?_
    rwa [costs, List.length_map, hsize]

theorem commitPins_optimal_two_on_three :
    let slot (x : Int) : Slot := { pos := ⟨x, 0⟩, layer := 0, edge := .bottom }
    let board : Board :=
      { boundary := { slots := #[slot 0, slot 10, slot 20] }
        pins := { pins := #[{ name := "a" }, { name := "b" }] } }
    let targets : TargetModel :=
      { targets := [(0, ⟨0, 0⟩), (1, ⟨0, 0⟩)], regions := [(1, ⟨5, 0, 15, 0⟩)] }
    let m : Matching :=
      { sec := { first := 0, stop := 3, edge := .bottom, room := 3, pins := [0, 1] }
        model := targets.model
        blockSize := 0 }
    let price (pin slot : Nat) : Cost :=
      (board.boundary.slots[slot]?).elim .infeasible fun s => targets.cost pin s.pos
    let found := m.findPins board false
    found.answer = .ok () ∧
      ∃ ps, m.Fills board price (found.state.commitPins board false) ps ∧ ps.length = 2 ∧
        ∀ other, Placement [0, 1] [0, 1, 2] other → other.length = 2 →
          Cost.NoWorse (costs price ps) (costs price other) := by
  intro slot board targets m price found
  have hprice : ∀ pin ∈ m.openPins board, ∀ slot ∈ m.openSlots board, ∀ s,
      board.boundary.slots[slot]? = some s → m.model pin s.pos = .ok (price pin slot) := by
    intro pin _ slot _ s hs
    simp only [price, hs, Option.elim_some]
    rfl
  have hpins : m.openPins board = [0, 1] := by decide
  have hslots : m.openSlots board = [0, 1, 2] := by decide
  obtain ⟨hfound, ps, hfills, hbest⟩ := commitPins_optimal (by decide) (by decide) hprice
  have hlength := hfills.length_eq
  rw [hpins, hslots] at hbest hlength
  have hbound : ∀ pin ∈ [0, 1], ∀ slot ∈ [0, 1, 2], ∀ v,
      price pin slot = .finite v → 0 ≤ v ∧ v ≤ 20 := by
    have hvalue : ∀ pin ∈ [0, 1], ∀ slot ∈ [0, 1, 2],
        0 ≤ (price pin slot).feasibleValue ∧ (price pin slot).feasibleValue ≤ 20 := by decide
    intro pin hpin slot hslot v hv
    have hin := hvalue pin hpin slot hslot
    rwa [hv] at hin
  exact ⟨hfound, ps, hfills, hlength, hbest 20 hbound (by decide)⟩

end Matching

end PinRing
