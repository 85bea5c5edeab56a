import PinRing.Assignment.Solve
import PinRing.Proofs.Assignment.Pairing

/-! The cells that an assignment matches, the assignments that match as many rows as possible, and
the exchange of rows and columns. -/

namespace PinRing

namespace Assignment

/-- The matched cells, where rows are numbered from `row` on. -/
def cellsFrom (row : Nat) : Assignment → List (Nat × Nat)
  | [] => []
  | none :: rest => cellsFrom (row + 1) rest
  | some col :: rest => (row, col) :: cellsFrom (row + 1) rest

/-- The matched cells, in row order. -/
def cells (a : Assignment) : List (Nat × Nat) := a.cellsFrom 0

/-- The columns given out, in row order. -/
def columns (a : Assignment) : List Nat := a.filterMap id

/-- The assignment matches as many of `n` rows to distinct ones of `m` columns as there can be. -/
structure Complete (a : Assignment) (n m : Nat) : Prop where
  length_eq : a.length = n
  columns_lt : ∀ col ∈ a.columns, col < m
  columns_nodup : a.columns.Nodup
  columns_length : a.columns.length = min n m

theorem mem_cellsFrom {a : Assignment} {row i j : Nat} :
    (i, j) ∈ a.cellsFrom row ↔ row ≤ i ∧ a[i - row]? = some (some j) := by
  induction a generalizing row with
  | nil => simp [cellsFrom]
  | cons entry rest ih =>
    have hrest : (i, j) ∈ cellsFrom (row + 1) rest ↔
        row + 1 ≤ i ∧ (entry :: rest)[i - row]? = some (some j) := by
      rw [ih]
      refine and_congr_right fun hi => ?_
      rw [show i - row = i - (row + 1) + 1 by omega, List.getElem?_cons_succ]
    cases entry with
    | none =>
      rw [cellsFrom, hrest]
      refine ⟨fun h => ⟨by omega, h.2⟩, fun h => ⟨?_, h.2⟩⟩
      rcases Nat.lt_or_eq_of_le h.1 with hlt | rfl
      · exact hlt
      · simp at h
    | some col =>
      rw [cellsFrom, List.mem_cons, hrest]
      constructor
      · rintro (h | h)
        · obtain ⟨rfl, rfl⟩ := Prod.mk.inj h
          simp
        · exact ⟨by omega, h.2⟩
      · rintro ⟨hle, h⟩
        rcases Nat.lt_or_eq_of_le hle with hlt | rfl
        · exact .inr ⟨hlt, h⟩
        · left
          simpa using h.symm

theorem mem_cells {a : Assignment} {i j : Nat} :
    (i, j) ∈ a.cells ↔ a[i]? = some (some j) := by
  simp [cells, mem_cellsFrom]

theorem map_snd_cellsFrom (a : Assignment) (row : Nat) :
    (a.cellsFrom row).map Prod.snd = a.columns := by
  induction a generalizing row with
  | nil => rfl
  | cons entry rest ih =>
    cases entry with
    | none => simpa [cellsFrom, columns] using ih (row + 1)
    | some col => simpa [cellsFrom, columns] using ih (row + 1)

theorem map_snd_cells (a : Assignment) : a.cells.map Prod.snd = a.columns :=
  a.map_snd_cellsFrom 0

theorem length_cells (a : Assignment) : a.cells.length = a.columns.length := by
  rw [← map_snd_cells, List.length_map]

theorem rows_nodup_cellsFrom (a : Assignment) (row : Nat) :
    ((a.cellsFrom row).map Prod.fst).Nodup := by
  induction a generalizing row with
  | nil => exact List.nodup_nil
  | cons entry rest ih =>
    cases entry with
    | none => exact ih (row + 1)
    | some col =>
      rw [cellsFrom, List.map_cons, List.nodup_cons]
      refine ⟨fun hmem => ?_, ih (row + 1)⟩
      obtain ⟨⟨i, j⟩, hcell, hi⟩ := List.mem_map.mp hmem
      have := (mem_cellsFrom.mp hcell).1
      simp only at hi
      omega

theorem cells_nodup (a : Assignment) : a.cells.Nodup :=
  (a.rows_nodup_cellsFrom 0).of_map _

/-- Matched cells lie in the rows of the assignment. -/
theorem row_lt_of_mem_cells {a : Assignment} {p : Nat × Nat} (h : p ∈ a.cells) :
    p.1 < a.length := by
  obtain ⟨i, j⟩ := p
  exact (List.getElem?_eq_some_iff.mp (mem_cells.mp h)).1

namespace Complete

variable {a : Assignment} {n m : Nat}

theorem pairing (h : a.Complete n m) : Pairing a.cells n m where
  rows_nodup := a.rows_nodup_cellsFrom 0
  cols_nodup := by
    rw [map_snd_cells]
    exact h.columns_nodup
  row_lt := fun p hp => h.length_eq ▸ row_lt_of_mem_cells hp
  col_lt := fun p hp => h.columns_lt p.2 (a.map_snd_cells ▸ List.mem_map_of_mem hp)

theorem cells_length (h : a.Complete n m) : a.cells.length = min n m := by
  rw [length_cells, h.columns_length]

/-- An assignment whose cells pair as many rows and columns as there can be is complete. -/
theorem of_pairing (hlen : a.length = n) (h : Pairing a.cells n m)
    (hsize : a.cells.length = min n m) : a.Complete n m where
  length_eq := hlen
  columns_lt := by
    rw [← map_snd_cells]
    intro col hcol
    obtain ⟨p, hp, rfl⟩ := List.mem_map.mp hcol
    exact h.col_lt p hp
  columns_nodup := by
    rw [← map_snd_cells]
    exact h.cols_nodup
  columns_length := by rw [← length_cells, hsize]

end Complete

/-- The assignment of `n` rows that matches each one to the first place at which it occurs. -/
def inverse (a : Assignment) (n : Nat) : Assignment :=
  (List.range n).map fun i => a.findIdx? (· == some i)

@[simp] theorem length_inverse (a : Assignment) (n : Nat) : (a.inverse n).length = n := by
  simp [inverse]

/-- No column is given to two rows. -/
theorem row_unique {a : Assignment} {col i j : Nat} (ha : a.columns.Nodup)
    (hi : a[i]? = some (some col)) (hj : a[j]? = some (some col)) : i = j := by
  have hinj := List.inj_on_of_nodup_map (a.map_snd_cells ▸ ha)
  simpa using hinj (mem_cells.mpr hi) (mem_cells.mpr hj) rfl

theorem isSome_rowOf?_go {a : Assignment} {col row : Nat} {found : Option Nat}
    (h : found.isSome ∨ some col ∈ a) : (rowOf?.go col row found a).isSome := by
  induction a generalizing row found with
  | nil => exact h.resolve_right List.not_mem_nil
  | cons entry rest ih =>
    refine ih ?_
    by_cases hentry : entry = some col
    · simp [hentry]
    · have hne : some col ≠ entry := Ne.symm hentry
      simpa [hentry, hne] using h

/-- Where no column is given out twice, the row that is found for a column is the one that it is
given to. -/
theorem rowOf?_eq_some {a : Assignment} {col row : Nat} (ha : a.columns.Nodup) :
    a.rowOf? col = some row ↔ a[row]? = some (some col) := by
  refine ⟨getElem?_of_rowOf?, fun h => ?_⟩
  have hsome : (a.rowOf? col).isSome := isSome_rowOf?_go (.inr (List.mem_of_getElem? h))
  obtain ⟨row', hrow'⟩ := Option.isSome_iff_exists.mp hsome
  rw [hrow', row_unique ha h (getElem?_of_rowOf? hrow')]

theorem getElem?_inverse {a : Assignment} {n i j : Nat} (ha : a.columns.Nodup) :
    (a.inverse n)[i]? = some (some j) ↔ i < n ∧ a[j]? = some (some i) := by
  have hfind : a.findIdx? (· == some i) = some j ↔ a[j]? = some (some i) := by
    rw [List.findIdx?_eq_some_iff_getElem]
    constructor
    · rintro ⟨hj, hval, -⟩
      rw [List.getElem?_eq_getElem hj, beq_iff_eq.mp hval]
    · intro hj
      obtain ⟨hlt, hval⟩ := List.getElem?_eq_some_iff.mp hj
      refine ⟨hlt, by simp [hval], fun k hk hvalk => ?_⟩
      have : a[k]? = some (some i) := by
        rw [List.getElem?_eq_getElem (by omega), beq_iff_eq.mp hvalk]
      have := row_unique ha hj this
      omega
  by_cases hi : i < n
  · simp [inverse, hi, hfind]
  · simp [inverse, hi]

/-- The inverse finds the rows of the columns. -/
theorem inverse_eq_map_rowOf? {a : Assignment} (ha : a.columns.Nodup) (n : Nat) :
    a.inverse n = (List.range n).map a.rowOf? := by
  refine List.ext_getElem? fun col => ?_
  rw [List.getElem?_map]
  by_cases hcol : col < n
  · rw [List.getElem?_range hcol, Option.map_some]
    have hlt : col < (a.inverse n).length := by rwa [length_inverse]
    refine (List.getElem?_eq_getElem hlt).trans (congrArg some (Option.ext fun row => ?_))
    have hinverse := getElem?_inverse ha (n := n) (i := col) (j := row)
    rw [List.getElem?_eq_getElem hlt, Option.some_inj] at hinverse
    rw [rowOf?_eq_some ha, hinverse, and_iff_right hcol]
  · rw [List.getElem?_eq_none (by simpa using hcol), List.getElem?_eq_none (by simpa using hcol)]
    rfl

/-- The cells of the inverse are the cells with rows and columns exchanged. -/
theorem cells_inverse_perm {a : Assignment} {n : Nat} (ha : a.columns.Nodup)
    (hlt : ∀ i ∈ a.columns, i < n) : (a.inverse n).cells.Perm (a.cells.map Prod.swap) := by
  refine (List.perm_ext_iff_of_nodup (cells_nodup _)
    (a.cells_nodup.map Prod.swap_injective)).mpr ?_
  rintro ⟨i, j⟩
  have hswap : (i, j) ∈ a.cells.map Prod.swap ↔ a[j]? = some (some i) := by
    rw [← mem_cells]
    constructor
    · intro h
      obtain ⟨⟨k, l⟩, hmem, heq⟩ := List.mem_map.mp h
      obtain ⟨rfl, rfl⟩ := Prod.mk.inj heq
      exact hmem
    · exact fun h => List.mem_map.mpr ⟨(j, i), h, rfl⟩
  rw [mem_cells, getElem?_inverse ha, hswap]
  refine and_iff_right_of_imp fun h => hlt i ?_
  rw [← map_snd_cells]
  exact List.mem_map.mpr ⟨(j, i), mem_cells.mpr h, rfl⟩

end Assignment

namespace Weights

/-- The weight of a cell, zero outside the matrix. -/
def value (w : Weights) (row col : Nat) : Int := (w.getD row []).getD col 0

theorem length_of_hasWidth {w : Weights} {m row : Nat} (hw : w.hasWidth m)
    (hrow : row < w.length) : w[row].length = m := by
  simpa using List.all_eq_true.mp hw w[row] (List.getElem_mem hrow)

theorem entry_eq {w : Weights} {m row col : Nat} (hw : w.hasWidth m) (hrow : row < w.length)
    (hcol : col < m) : w.entry row col = .ok (w.value row col) := by
  simp [entry, value, hrow, length_of_hasWidth hw hrow, hcol]

theorem costFrom_eq {w : Weights} {m row : Nat} {a : Assignment} (hw : w.hasWidth m)
    (h : ∀ p ∈ a.cellsFrom row, p.1 < w.length ∧ p.2 < m) :
    w.costFrom row a = .ok (cellSum w.value (a.cellsFrom row)) := by
  induction a generalizing row with
  | nil => rfl
  | cons entry rest ih =>
    cases entry with
    | none => exact ih h
    | some col =>
      have hhead := h (row, col) List.mem_cons_self
      have hrest := ih fun p hp => h p (List.mem_cons_of_mem _ hp)
      simp only [costFrom, entry_eq hw hhead.1 hhead.2, hrest]
      rfl

/-- The total cost of an assignment inside the matrix is the sum over its cells. -/
theorem totalCost_eq {w : Weights} {m : Nat} {a : Assignment} (hw : w.hasWidth m)
    (h : a.Complete w.length m) : w.totalCost a = .ok (cellSum w.value a.cells) :=
  costFrom_eq hw fun p hp => ⟨h.pairing.row_lt p hp, h.pairing.col_lt p hp⟩

theorem lookup_toArray (w : Weights) (row col : Nat) :
    lookup (w.map List.toArray).toArray row col = w.value row col := by
  cases h : w[row]? with
  | none => simp [lookup, value, List.getD_eq_getElem?_getD, Array.getD_eq_getD_getElem?, h]
  | some r => simp [lookup, value, List.getD_eq_getElem?_getD, Array.getD_eq_getD_getElem?, h]

theorem owners_eq (w : Weights) (n m : Nat) :
    w.owners n m = (Assignment.Labeling.afterRows w.value n m n).owner := by
  have hweight : lookup (w.map List.toArray).toArray = w.value :=
    funext fun row => funext fun col => lookup_toArray w row col
  simp only [owners, hweight]

theorem value_transpose {w : Weights} {m row col : Nat} (hrow : row < m) :
    (w.transpose m).value row col = w.value col row := by
  cases h : w[col]? with
  | none => simp [value, transpose, List.getD_eq_getElem?_getD, hrow, h]
  | some r => simp [value, transpose, List.getD_eq_getElem?_getD, hrow, h]

theorem solveWide_eq (w : Weights) (n m : Nat) :
    w.solveWide n m = Assignment.inverse (w.owners n m).toList n := rfl

theorem solveSized_of_le (w : Weights) {n m : Nat} (h : n ≤ m) :
    w.solveSized n m = w.solveWide n m := by
  simp [solveSized, h]

theorem solveSized_of_lt (w : Weights) {n m : Nat} (h : m < n) :
    w.solveSized n m = ((w.transpose m).solveWide m n).inverse n := by
  simp [solveSized, Assignment.inverse, Nat.not_le.mpr h]

theorem solve_eq {w : Weights} {m : Nat} (hw : w.hasWidth m) :
    w.solve = .ok (w.solveSized w.length m) := by
  cases w with
  | nil => rfl
  | cons first rest =>
    have hfirst : first.length = m := length_of_hasWidth hw (Nat.zero_lt_succ _)
    simp only [solve, hfirst, hw, if_true]

end Weights

end PinRing
