import PinRing.Proofs.Assignment.Cells
import PinRing.Proofs.Assignment.Insertion

/-! The assignment solver gives out as many columns as it can at the least total weight.  For at
least as many columns as rows the labels after the last insertion are a certificate; otherwise the
columns are solved for and the answer is turned around. -/

namespace PinRing

namespace Assignment

variable {weight : Nat → Nat → Int} {n m i : Nat} {l : Labeling}

theorem getElem?_owner {j r : Nat} :
    l.owner.toList[j]? = some (some r) ↔ l.ownerOf j = some r := by
  rw [Array.getElem?_toList, Labeling.ownerOf, Array.getD_eq_getD_getElem?]
  cases l.owner[j]? <;> simp

theorem Labeling.Fits.columns_nodup (h : l.Fits weight n m i) :
    (columns l.owner.toList).Nodup := by
  rw [← map_snd_cells]
  refine (cells_nodup _).map_on ?_
  rintro ⟨j, r⟩ hj ⟨k, q⟩ hk rfl
  rw [h.owner_inj j k r (getElem?_owner.mp (mem_cells.mp hj))
    (getElem?_owner.mp (mem_cells.mp hk))]

theorem mem_columns {a : Assignment} {col : Nat} :
    col ∈ a.columns ↔ ∃ r : Nat, a[r]? = some (some col) := by
  rw [← map_snd_cells]
  constructor
  · intro h
    obtain ⟨⟨r, c⟩, hmem, rfl⟩ := List.mem_map.mp h
    exact ⟨r, mem_cells.mp hmem⟩
  · rintro ⟨r, hr⟩
    exact List.mem_map.mpr ⟨(r, col), mem_cells.mpr hr, rfl⟩

theorem Labeling.Fits.columns_perm (h : l.Fits weight n m i) :
    (columns l.owner.toList).Perm (List.range i) := by
  refine (List.perm_ext_iff_of_nodup h.columns_nodup List.nodup_range).mpr fun r => ?_
  rw [mem_columns, List.mem_range, ← h.owned_iff r]
  exact exists_congr fun j => getElem?_owner

/-- Once all rows have been inserted, the labels certify the matching. -/
theorem Labeling.Fits.certificate (h : l.Fits weight n m n) :
    Certificate weight n m (inverse l.owner.toList n).cells
      (fun r => l.rowLabel.getD r 0) (fun j => l.colLabel.getD j 0) := by
  have hlt : ∀ r ∈ columns l.owner.toList, r < n := fun r hr =>
    List.mem_range.mp (h.columns_perm.mem_iff.mp hr)
  have hperm := cells_inverse_perm h.columns_nodup hlt
  have howner : ∀ r j, (r, j) ∈ (inverse l.owner.toList n).cells ↔ l.ownerOf j = some r := by
    intro r j
    rw [mem_cells, getElem?_inverse h.columns_nodup, getElem?_owner]
    exact and_iff_right_of_imp fun hown => (h.lt_of_owned hown).1
  have hpairing : Pairing (cells l.owner.toList) m n := by
    constructor
    · exact rows_nodup_cellsFrom _ 0
    · rw [map_snd_cells]
      exact h.columns_nodup
    · intro p hp
      have := row_lt_of_mem_cells hp
      rwa [Array.length_toList, h.owner_size] at this
    · intro p hp
      exact hlt p.2 (map_snd_cells _ ▸ List.mem_map_of_mem hp)
  constructor
  · exact hpairing.swap.of_perm hperm.symm
  · rw [hperm.length_eq, List.length_map, length_cells, h.columns_perm.length_eq,
      List.length_range]
  · exact fun r hr j hj => h.le_weight hr hj
  · exact fun ⟨r, j⟩ hp => h.eq_weight ((howner r j).mp hp)
  · exact fun j _ => h.col_nonpos j
  · intro j _ hout
    refine h.col_free j ?_
    cases hown : l.ownerOf j with
    | none => rfl
    | some r => exact absurd (List.mem_map.mpr ⟨(r, j), (howner r j).mpr hown, rfl⟩) hout

end Assignment

namespace Weights

open Assignment

variable {w : Weights} {m : Nat}

/-- With at least as many columns as rows, every row gets a column and no other pairing of all rows
weighs less. -/
theorem solveWide_least (w : Weights) {n m : Nat} (hle : n ≤ m) :
    (w.solveWide n m).Complete n m ∧
      ∀ other, Pairing other n m → other.length = n →
        cellSum w.value (w.solveWide n m).cells ≤ cellSum w.value other := by
  have hready := Labeling.afterRows_ready w.value (Nat.le_refl n) hle
  have hcert := hready.fits.certificate
  rw [solveWide_eq, owners_eq]
  refine ⟨Complete.of_pairing (length_inverse _ _) hcert.pairing ?_,
    fun other => hcert.cellSum_le_cellSum⟩
  rw [hcert.full, Nat.min_eq_left hle]

/-- As many rows as possible get a column of their own, and no other pairing of that size weighs
less. -/
theorem solveSized_least (w : Weights) (m : Nat) :
    (w.solveSized w.length m).Complete w.length m ∧
      ∀ other, Pairing other w.length m → other.length = min w.length m →
        cellSum w.value (w.solveSized w.length m).cells ≤ cellSum w.value other := by
  rcases Nat.lt_or_ge m w.length with hlt | hle
  · rw [solveSized_of_lt w hlt, Nat.min_eq_right (Nat.le_of_lt hlt)]
    obtain ⟨hcomplete, hleast⟩ := (w.transpose m).solveWide_least (Nat.le_of_lt hlt)
    have hperm := cells_inverse_perm hcomplete.columns_nodup hcomplete.columns_lt
    have hvalue : ∀ cells : List (Nat × Nat), Pairing cells m w.length →
        cellSum w.value (cells.map Prod.swap) = cellSum (w.transpose m).value cells := by
      intro cells hcells
      rw [cellSum_swap]
      exact cellSum_congr fun p hp => (value_transpose (hcells.row_lt p hp)).symm
    refine ⟨Complete.of_pairing (length_inverse _ _)
      (hcomplete.pairing.swap.of_perm hperm.symm) ?_, fun other hother hsize => ?_⟩
    · rw [hperm.length_eq, List.length_map, hcomplete.cells_length, Nat.min_comm]
    · rw [cellSum_perm hperm, hvalue _ hcomplete.pairing]
      have hback : (other.map Prod.swap).map Prod.swap = other := by
        simp [List.map_map, Function.comp_def]
      calc
        _ ≤ cellSum (w.transpose m).value (other.map Prod.swap) :=
          hleast _ hother.swap (by rw [List.length_map, hsize])
        _ = cellSum w.value other := by rw [← hvalue _ hother.swap, hback]
  · rw [solveSized_of_le w hle, Nat.min_eq_left hle]
    exact w.solveWide_least hle

theorem solve_least (hw : w.hasWidth m) : ∃ a, w.solve = .ok a ∧ a.Complete w.length m ∧
    ∀ other, Pairing other w.length m → other.length = min w.length m →
      cellSum w.value a.cells ≤ cellSum w.value other :=
  ⟨_, solve_eq hw, solveSized_least w m⟩

/-- The solver gives out as many columns as there can be, no two of them equal, and the total cost
of its answer is at most that of every assignment that gives out as many. -/
theorem solve_optimal (hw : w.hasWidth m) :
    ∃ a cost, w.solve = .ok a ∧ a.Complete w.length m ∧ w.totalCost a = .ok cost ∧
      ∀ b : Assignment, b.Complete w.length m →
        ∃ other, w.totalCost b = .ok other ∧ cost ≤ other := by
  obtain ⟨a, hsolve, hcomplete, hleast⟩ := solve_least hw
  refine ⟨a, _, hsolve, hcomplete, totalCost_eq hw hcomplete, fun b hb => ?_⟩
  exact ⟨_, totalCost_eq hw hb, hleast b.cells hb.pairing hb.cells_length⟩

theorem solve_optimal_four_by_three :
    let w : Weights := [[7, -2, 4], [1, 1, -9], [0, 5, 2147483647], [-3, -3, -3]]
    w.hasWidth 3 ∧ ∃ a cost, w.solve = .ok a ∧ a.Complete w.length 3 ∧ w.totalCost a = .ok cost ∧
      ∀ b : Assignment, b.Complete w.length 3 →
        ∃ other, w.totalCost b = .ok other ∧ cost ≤ other :=
  ⟨by decide, solve_optimal (by decide)⟩

end Weights

end PinRing
