import Mathlib.Data.List.GetD
import PinRing.Placement.Matching
import PinRing.Proofs.Assignment.Optimal
import PinRing.Proofs.Placement.RegularPass

/-! Matrices at given prices.  The solver's answer to such a matrix is a placement of as many pins
as there can be, and no other placement of as many weighs less. -/

namespace PinRing

/-- Some of the pins, each on a slot of its own. -/
structure Placement (pins slots : List Nat) (ps : List (Nat × Nat)) : Prop where
  pins_nodup : (ps.map Prod.fst).Nodup
  slots_nodup : (ps.map Prod.snd).Nodup
  pin_mem : ∀ p ∈ ps, p.1 ∈ pins
  slot_mem : ∀ p ∈ ps, p.2 ∈ slots

namespace Placement

variable {pins slots : List Nat} {ps cells : List (Nat × Nat)}

theorem nodup_map_getD {l is : List Nat} (hl : l.Nodup) (his : is.Nodup)
    (hlt : ∀ i ∈ is, i < l.length) : (is.map (l.getD · 0)).Nodup := by
  refine his.map_on fun i hi j hj heq => ?_
  rw [List.getD_eq_getElem l 0 (hlt i hi), List.getD_eq_getElem l 0 (hlt j hj)] at heq
  exact (List.Nodup.getElem_inj_iff hl).mp heq

theorem nodup_map_idxOf {l is : List Nat} (his : is.Nodup) (hmem : ∀ i ∈ is, i ∈ l) :
    (is.map l.idxOf).Nodup :=
  his.map_on fun i hi _ _ heq => (List.idxOf_inj (hmem i hi)).mp heq

/-- The cells of a pairing, read as pins and slots. -/
theorem of_pairing (hpins : pins.Nodup) (hslots : slots.Nodup)
    (h : Pairing cells pins.length slots.length) :
    Placement pins slots (cells.map fun c => (pins.getD c.1 0, slots.getD c.2 0)) where
  pins_nodup := by
    have hnodup := nodup_map_getD hpins h.rows_nodup fun i hi => by
      obtain ⟨c, hc, rfl⟩ := List.mem_map.mp hi
      exact h.row_lt c hc
    simpa [List.map_map, Function.comp_def] using hnodup
  slots_nodup := by
    have hnodup := nodup_map_getD hslots h.cols_nodup fun i hi => by
      obtain ⟨c, hc, rfl⟩ := List.mem_map.mp hi
      exact h.col_lt c hc
    simpa [List.map_map, Function.comp_def] using hnodup
  pin_mem := by
    intro p hp
    obtain ⟨c, hc, rfl⟩ := List.mem_map.mp hp
    simp only [List.getD_eq_getElem pins 0 (h.row_lt c hc)]
    exact List.getElem_mem _
  slot_mem := by
    intro p hp
    obtain ⟨c, hc, rfl⟩ := List.mem_map.mp hp
    simp only [List.getD_eq_getElem slots 0 (h.col_lt c hc)]
    exact List.getElem_mem _

/-- A placement as a pairing of positions. -/
theorem pairing (h : Placement pins slots ps) :
    Pairing (ps.map fun p => (pins.idxOf p.1, slots.idxOf p.2)) pins.length slots.length where
  rows_nodup := by
    have hnodup := nodup_map_idxOf h.pins_nodup fun i hi => by
      obtain ⟨p, hp, rfl⟩ := List.mem_map.mp hi
      exact h.pin_mem p hp
    simpa [List.map_map, Function.comp_def] using hnodup
  cols_nodup := by
    have hnodup := nodup_map_idxOf h.slots_nodup fun i hi => by
      obtain ⟨p, hp, rfl⟩ := List.mem_map.mp hi
      exact h.slot_mem p hp
    simpa [List.map_map, Function.comp_def] using hnodup
  row_lt := by
    intro c hc
    obtain ⟨p, hp, rfl⟩ := List.mem_map.mp hc
    exact List.idxOf_lt_length_iff.mpr (h.pin_mem p hp)
  col_lt := by
    intro c hc
    obtain ⟨p, hp, rfl⟩ := List.mem_map.mp hc
    exact List.idxOf_lt_length_iff.mpr (h.slot_mem p hp)

theorem map_getD_idxOf (h : Placement pins slots ps) :
    (ps.map fun p => (pins.idxOf p.1, slots.idxOf p.2)).map
      (fun c => (pins.getD c.1 0, slots.getD c.2 0)) = ps := by
  rw [List.map_map]
  refine (List.map_congr_left fun p hp => ?_).trans (List.map_id ps)
  have hpin := List.idxOf_lt_length_iff.mpr (h.pin_mem p hp)
  have hslot := List.idxOf_lt_length_iff.mpr (h.slot_mem p hp)
  simp only [Function.comp_apply, List.getD_eq_getElem _ 0 hpin, List.getD_eq_getElem _ 0 hslot,
    List.getElem_idxOf, id]

end Placement

open PinPass Assignment Weights

/-- The matrix of pins on slots at given prices. -/
def CostMatrix.priced (price : Nat → Nat → Cost) (pins slots : List Nat) : CostMatrix where
  cells := slots.map fun i => pins.map (price · i)
  rowSlots := slots
  columns := pins

section Priced

variable {price : Nat → Nat → Cost} {pins slots : List Nat} {cells ps : List (Nat × Nat)}

theorem cell_priced {row col slot pin : Nat} (hslot : slots[row]? = some slot)
    (hpin : pins[col]? = some pin) :
    (CostMatrix.priced price pins slots).cell row col = .ok (price pin slot) := by
  simp [CostMatrix.cell, CostMatrix.priced, hslot, hpin]

theorem value_priced {row col : Nat} (hrow : row < slots.length) (hcol : col < pins.length) :
    (CostMatrix.priced price pins slots).weights.value row col =
      (price (pins.getD col 0) (slots.getD row 0)).weight := by
  simp [Weights.value, CostMatrix.weights, CostMatrix.priced, List.getD_eq_getElem?_getD, hrow,
    hcol]

theorem hasWidth_priced (price : Nat → Nat → Cost) (pins slots : List Nat) :
    (CostMatrix.priced price pins slots).weights.hasWidth pins.length := by
  simp [Weights.hasWidth, CostMatrix.weights, CostMatrix.priced]

/-- The weight of a pairing of positions is that of the pins and slots at them. -/
theorem cellSum_priced (h : Pairing cells pins.length slots.length) :
    cellSum (CostMatrix.priced price pins slots).weights.value (cells.map Prod.swap) =
      ((costs price (cells.map (seat (CostMatrix.priced price pins slots)))).map
        Cost.weight).sum := by
  rw [cellSum, costs, List.map_map, List.map_map, List.map_map]
  refine congrArg List.sum (List.map_congr_left fun c hc => ?_)
  exact value_priced (h.col_lt c hc) (h.row_lt c hc)

theorem seats_eq {matrix : CostMatrix} {a : Assignment} (ha : a.columns.Nodup) :
    seats matrix a = (a.inverse matrix.columns.length).cells.map (seat matrix) := by
  rw [inverse_eq_map_rowOf? ha, List.range_eq_range']
  rfl

/-- The solver's answer to a priced matrix: a placement of as many pins as there can be, and of
least total weight. -/
structure Solution (price : Nat → Nat → Cost) (pins slots : List Nat) (a : Assignment) : Prop where
  solved : Matching.solved (.priced price pins slots) = .ok a
  complete : a.Complete slots.length pins.length
  placement : Placement pins slots (seats (.priced price pins slots) a)
  length_eq : (seats (.priced price pins slots) a).length = min pins.length slots.length
  totalCost_eq : (CostMatrix.priced price pins slots).weights.totalCost a =
    .ok ((costs price (seats (.priced price pins slots) a)).map Cost.weight).sum
  least : ∀ other, Placement pins slots other → other.length = min pins.length slots.length →
    ((costs price (seats (.priced price pins slots) a)).map Cost.weight).sum ≤
      ((costs price other).map Cost.weight).sum

theorem exists_solution (price : Nat → Nat → Cost) (hpins : pins.Nodup) (hslots : slots.Nodup)
    (hne : pins ≠ []) : ∃ a, Solution price pins slots a := by
  let matrix := CostMatrix.priced price pins slots
  have hwidth := hasWidth_priced price pins slots
  have hlength : matrix.weights.length = slots.length := by
    simp [matrix, CostMatrix.weights, CostMatrix.priced]
  obtain ⟨a, hsolve, hcomplete, hleast⟩ := solve_least hwidth
  have htotal := totalCost_eq hwidth hcomplete
  rw [hlength] at hcomplete hleast
  have hperm := cells_inverse_perm hcomplete.columns_nodup hcomplete.columns_lt
  have hpairing : Pairing (a.inverse pins.length).cells pins.length slots.length :=
    hcomplete.pairing.swap.of_perm hperm.symm
  have hseats : seats matrix a = (a.inverse pins.length).cells.map (seat matrix) :=
    seats_eq hcomplete.columns_nodup
  have hsum : ((costs price (seats matrix a)).map Cost.weight).sum =
      cellSum matrix.weights.value a.cells := by
    have hback : (a.cells.map Prod.swap).map Prod.swap = a.cells := by
      simp [List.map_map, Function.comp_def]
    rw [hseats, ← cellSum_priced hpairing, cellSum_perm (hperm.map Prod.swap), hback]
  refine ⟨a, ?_, hcomplete, ?_, ?_, ?_, fun other hother hsize => ?_⟩
  · -- Without slots the solver is not asked, and its answer would be the same.
    cases hslots : slots with
    | nil =>
      subst hslots
      exact hsolve
    | cons slot rest =>
      have hempty : matrix.empty = false := by
        simpa [matrix, CostMatrix.empty, CostMatrix.rows, CostMatrix.cols, CostMatrix.priced,
          hslots] using hne
      rw [← hslots, Matching.solved, hempty]
      exact hsolve
  · rw [hseats]
    exact Placement.of_pairing hpins hslots hpairing
  · rw [hseats, List.length_map, hperm.length_eq, List.length_map, hcomplete.cells_length,
      Nat.min_comm]
  · rw [hsum]
    exact htotal
  · have hindex := hother.pairing
    have hback : (other.map fun p => (pins.idxOf p.1, slots.idxOf p.2)).map (seat matrix) = other :=
      hother.map_getD_idxOf
    have hle := hleast _ hindex.swap (by simp [hsize, Nat.min_comm])
    rw [cellSum_priced hindex, hback] at hle
    rw [hsum]
    exact hle

/-- The row that a solution finds for a column is a row of the matrix. -/
theorem Solution.row_lt {a : Assignment} (h : Solution price pins slots a) {col row : Nat}
    (hrow : a.rowOf? col = some row) : row < slots.length := by
  have hlt := (List.getElem?_eq_some_iff.mp (getElem?_of_rowOf? hrow)).1
  rwa [h.complete.length_eq] at hlt

/-- The matched pins with their slots, by cells of the assignment. -/
theorem Solution.mem_seats {a : Assignment} (h : Solution price pins slots a) {p : Nat × Nat}
    (hp : p ∈ seats (.priced price pins slots) a) :
    ∃ col row : Nat, a[row]? = some (some col) ∧ slots[row]? = some p.2 := by
  rw [seats_eq h.complete.columns_nodup] at hp
  obtain ⟨⟨col, row⟩, hcell, rfl⟩ := List.mem_map.mp hp
  obtain ⟨-, hrow⟩ := (getElem?_inverse h.complete.columns_nodup).mp (mem_cells.mp hcell)
  have hlt : row < slots.length := h.complete.length_eq ▸ (List.getElem?_eq_some_iff.mp hrow).1
  refine ⟨col, row, hrow, ?_⟩
  simp [seat, CostMatrix.priced, List.getD_eq_getElem?_getD, hlt]

/-- On fewer slots, among them all that a solution uses, solutions place as many pins at the same
weight. -/
theorem Solution.same_weight {slots' : List Nat} {a a' : Assignment}
    (h : Solution price pins slots a) (h' : Solution price pins slots' a') (hnodup : slots'.Nodup)
    (hsub : slots' ⊆ slots)
    (hkept : ∀ p ∈ seats (.priced price pins slots) a, p.2 ∈ slots') :
    min pins.length slots'.length = min pins.length slots.length ∧
      ((costs price (seats (.priced price pins slots') a')).map Cost.weight).sum =
        ((costs price (seats (.priced price pins slots) a)).map Cost.weight).sum := by
  have hfewer : slots'.length ≤ slots.length := (hnodup.subperm hsub).length_le
  have hroom : (seats (.priced price pins slots) a).length ≤ slots'.length := by
    have hslots : (seats (.priced price pins slots) a).map Prod.snd ⊆ slots' := by
      intro slot hslot
      obtain ⟨p, hp, rfl⟩ := List.mem_map.mp hslot
      exact hkept p hp
    have := (h.placement.slots_nodup.subperm hslots).length_le
    rwa [List.length_map] at this
  have hlength := h.length_eq
  have hsize : min pins.length slots'.length = min pins.length slots.length := by omega
  -- Each solution is a placement on the slots of the other, so neither weighs more.
  have hthere : Placement pins slots' (seats (.priced price pins slots) a) :=
    { h.placement with slot_mem := hkept }
  have hback : Placement pins slots (seats (.priced price pins slots') a') :=
    { h'.placement with slot_mem := fun p hp => hsub (h'.placement.slot_mem p hp) }
  exact ⟨hsize, Int.le_antisymm (h'.least _ hthere (hlength.trans hsize.symm))
    (h.least _ hback (h'.length_eq.trans hsize))⟩

end Priced

end PinRing
