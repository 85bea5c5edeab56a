import Mathlib.Algebra.BigOperators.Group.Finset.Basic
import Mathlib.Algebra.Order.BigOperators.Group.Finset
import Mathlib.Algebra.Ring.Int.Defs
import Mathlib.Data.Finset.Card
import PinRing.Assignment.Basic

/-! Pairings of rows with columns as lists of cells, and the bound that labels put on their
weight: a pairing whose cells are tight under feasible labels weighs no more than any other of its
size. -/

namespace PinRing

/-- Cells of a grid of `n` rows and `m` columns, no two in one row or in one column. -/
structure Pairing (cells : List (Nat × Nat)) (n m : Nat) : Prop where
  rows_nodup : (cells.map Prod.fst).Nodup
  cols_nodup : (cells.map Prod.snd).Nodup
  row_lt : ∀ p ∈ cells, p.1 < n
  col_lt : ∀ p ∈ cells, p.2 < m

/-- The sum of the weights of some cells. -/
def cellSum (weight : Nat → Nat → Int) (cells : List (Nat × Nat)) : Int :=
  (cells.map fun p => weight p.1 p.2).sum

namespace Pairing

variable {cells : List (Nat × Nat)} {n m : Nat}

theorem swap (h : Pairing cells n m) : Pairing (cells.map Prod.swap) m n where
  rows_nodup := by simpa [List.map_map, Function.comp_def] using h.cols_nodup
  cols_nodup := by simpa [List.map_map, Function.comp_def] using h.rows_nodup
  row_lt := by
    rintro _ hp
    obtain ⟨p, hmem, rfl⟩ := List.mem_map.mp hp
    exact h.col_lt p hmem
  col_lt := by
    rintro _ hp
    obtain ⟨p, hmem, rfl⟩ := List.mem_map.mp hp
    exact h.row_lt p hmem

theorem of_perm {other : List (Nat × Nat)} (h : Pairing cells n m) (hp : cells.Perm other) :
    Pairing other n m where
  rows_nodup := (hp.map _).nodup_iff.mp h.rows_nodup
  cols_nodup := (hp.map _).nodup_iff.mp h.cols_nodup
  row_lt := fun p hmem => h.row_lt p (hp.mem_iff.mpr hmem)
  col_lt := fun p hmem => h.col_lt p (hp.mem_iff.mpr hmem)

/-- A pairing with as many cells as there are rows has one in every row. -/
theorem rows_eq_range (h : Pairing cells n m) (hsize : cells.length = n) :
    (cells.map Prod.fst).toFinset = Finset.range n := by
  refine Finset.eq_of_subset_of_card_le ?_ ?_
  · intro i hi
    obtain ⟨p, hmem, rfl⟩ := List.mem_map.mp (List.mem_toFinset.mp hi)
    exact Finset.mem_range.mpr (h.row_lt p hmem)
  · rw [List.toFinset_card_of_nodup h.rows_nodup]
    simp [hsize]

theorem cols_subset_range (h : Pairing cells n m) :
    (cells.map Prod.snd).toFinset ⊆ Finset.range m := by
  intro j hj
  obtain ⟨p, hmem, rfl⟩ := List.mem_map.mp (List.mem_toFinset.mp hj)
  exact Finset.mem_range.mpr (h.col_lt p hmem)

/-- The labels of the cells of a pairing that has a cell in every row: all row labels, and the
labels of its columns. -/
theorem cellSum_labels (h : Pairing cells n m) (hsize : cells.length = n) (u v : Nat → Int) :
    cellSum (fun i j => u i + v j) cells =
      ∑ i ∈ Finset.range n, u i + ∑ j ∈ (cells.map Prod.snd).toFinset, v j := by
  rw [← h.rows_eq_range hsize, List.sum_toFinset _ h.rows_nodup, List.sum_toFinset _ h.cols_nodup]
  simp only [cellSum, List.map_map, Function.comp_def]
  exact List.sum_map_add

end Pairing

theorem cellSum_perm {weight : Nat → Nat → Int} {cells other : List (Nat × Nat)}
    (h : cells.Perm other) : cellSum weight cells = cellSum weight other :=
  (h.map _).sum_eq

theorem cellSum_swap (weight : Nat → Nat → Int) (cells : List (Nat × Nat)) :
    cellSum weight (cells.map Prod.swap) = cellSum (fun i j => weight j i) cells := by
  simp [cellSum, List.map_map, Function.comp_def]

theorem cellSum_congr {weight other : Nat → Nat → Int} {cells : List (Nat × Nat)}
    (h : ∀ p ∈ cells, weight p.1 p.2 = other p.1 p.2) :
    cellSum weight cells = cellSum other cells :=
  congrArg List.sum (List.map_congr_left h)

theorem cellSum_le {weight other : Nat → Nat → Int} {cells : List (Nat × Nat)}
    (h : ∀ p ∈ cells, weight p.1 p.2 ≤ other p.1 p.2) :
    cellSum weight cells ≤ cellSum other cells :=
  List.sum_le_sum h

/-- Row labels `u` and column labels `v` that prove a pairing of `n` rows to be of least weight:
they never exceed the weight of a cell, meet it on the cells of the pairing, and a column label is
at most zero, and zero off the pairing. -/
structure Certificate (weight : Nat → Nat → Int) (n m : Nat) (cells : List (Nat × Nat))
    (u v : Nat → Int) : Prop where
  pairing : Pairing cells n m
  full : cells.length = n
  le_weight : ∀ i < n, ∀ j < m, u i + v j ≤ weight i j
  tight : ∀ p ∈ cells, u p.1 + v p.2 = weight p.1 p.2
  col_nonpos : ∀ j < m, v j ≤ 0
  col_free : ∀ j < m, j ∉ cells.map Prod.snd → v j = 0

namespace Certificate

variable {weight : Nat → Nat → Int} {n m : Nat} {cells : List (Nat × Nat)} {u v : Nat → Int}

/-- The weight of a certified pairing is the sum of all labels. -/
theorem cellSum_eq (h : Certificate weight n m cells u v) :
    cellSum weight cells = ∑ i ∈ Finset.range n, u i + ∑ j ∈ Finset.range m, v j := by
  have htight : cellSum weight cells = cellSum (fun i j => u i + v j) cells :=
    cellSum_congr fun p hp => (h.tight p hp).symm
  rw [htight, h.pairing.cellSum_labels h.full]
  congr 1
  refine Finset.sum_subset h.pairing.cols_subset_range fun j hj hout => ?_
  exact h.col_free j (Finset.mem_range.mp hj) fun hmem => hout (List.mem_toFinset.mpr hmem)

/-- No pairing of all rows weighs less than the labels. -/
theorem labels_le (h : Certificate weight n m cells u v) {other : List (Nat × Nat)}
    (hother : Pairing other n m) (hfull : other.length = n) :
    ∑ i ∈ Finset.range n, u i + ∑ j ∈ Finset.range m, v j ≤ cellSum weight other := by
  have hcols : ∑ j ∈ Finset.range m, v j ≤ ∑ j ∈ (other.map Prod.snd).toFinset, v j := by
    have := Finset.sum_le_sum_of_subset_of_nonneg (f := fun j => -v j) hother.cols_subset_range
      fun j hj _ => neg_nonneg.mpr (h.col_nonpos j (Finset.mem_range.mp hj))
    simpa using this
  calc
    _ ≤ ∑ i ∈ Finset.range n, u i + ∑ j ∈ (other.map Prod.snd).toFinset, v j := by omega
    _ = cellSum (fun i j => u i + v j) other := (hother.cellSum_labels hfull u v).symm
    _ ≤ cellSum weight other :=
      cellSum_le fun p hp => h.le_weight p.1 (hother.row_lt p hp) p.2 (hother.col_lt p hp)

/-- A certified pairing is of least weight. -/
theorem cellSum_le_cellSum (h : Certificate weight n m cells u v) {other : List (Nat × Nat)}
    (hother : Pairing other n m) (hfull : other.length = n) :
    cellSum weight cells ≤ cellSum weight other :=
  h.cellSum_eq.trans_le (h.labels_le hother hfull)

end Certificate

end PinRing
