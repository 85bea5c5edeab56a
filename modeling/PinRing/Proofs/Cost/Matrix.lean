import Mathlib.Data.List.Nodup
import Mathlib.Tactic.Common
import PinRing.Cost.Matrix
import PinRing.Proofs.Board.PinTable
import PinRing.Proofs.Except

/-! What the rows and columns of a section's matrices stand for. -/

namespace PinRing

theorem Boundary.slot_eq_ok {b : Boundary} {i : Nat} {s : Slot} :
    b.slot i = .ok s ↔ b.slots[i]? = some s := by
  unfold Boundary.slot
  cases b.slots[i]? <;> simp

theorem Boundary.isAvailable_of_slot {b : Boundary} {i : Nat} {s : Slot} (h : b.slot i = .ok s) :
    b.isAvailable i = s.available := by
  simp [isAvailable, slot_eq_ok.mp h]

theorem CostMatrix.rowSlot_eq_ok {m : CostMatrix} {row slot : Nat} :
    m.rowSlot row = .ok slot ↔ m.rowSlots[row]? = some slot := by
  unfold CostMatrix.rowSlot
  cases m.rowSlots[row]? <;> simp

theorem CostMatrix.cell_eq_ok {m : CostMatrix} {row col : Nat} {c : Cost} :
    m.cell row col = .ok c ↔ ∃ cells, m.cells[row]? = some cells ∧ cells[col]? = some c := by
  unfold CostMatrix.cell
  cases m.cells[row]? with
  | none => simp
  | some cells => cases hc : cells[col]? <;> simp [hc]

namespace Section

variable {b : Boundary} {pins : PinTable} {model : CostModel} {f : PinFilter} {s : Section}
variable {matrix : CostMatrix} {start size : Nat}

/-! ### Pins -/

/-- The filter is asked once about each pin. -/
theorem openPins_eq_ok {is columns : List Nat} :
    openPins pins f is = .ok columns ↔ (∀ i ∈ is, i < pins.size) ∧
      columns = is.filter fun i => (pins.pins[i]?).any (f.admits pins) := by
  induction is generalizing columns with
  | nil => simp [openPins, eq_comm]
  | cons i is ih =>
    rw [openPins]
    cases hp : pins.pin i with
    | error fault =>
      have hout : ¬i < pins.size := by
        intro hi
        have := PinTable.pin_eq_ok.mpr (Array.getElem?_eq_getElem hi)
        rw [hp] at this
        cases this
      simp [Bind.bind, Except.bind, hout]
    | ok p =>
      have hp := PinTable.pin_eq_ok.mp hp
      have hi : i < pins.size := (Array.getElem?_eq_some_iff.mp hp).1
      simp only [Bind.bind, Except.bind]
      cases hrest : openPins pins f is with
      | error fault =>
        have hout : ¬∀ j ∈ is, j < pins.size := by
          intro hall
          have := ih.mpr ⟨hall, rfl⟩
          rw [hrest] at this
          cases this
        constructor
        · intro h
          cases h
        · rintro ⟨hall, -⟩
          exact absurd (fun j hj => hall j (List.mem_cons_of_mem _ hj)) hout
      | ok others =>
        obtain ⟨hall, rfl⟩ := ih.mp hrest
        have hcons : (∀ j ∈ i :: is, j < pins.size) :=
          List.forall_mem_cons.mpr ⟨hi, hall⟩
        rw [and_iff_right hcons, List.filter_cons, hp, Option.any_some]
        simp only [pure, Except.pure, Except.ok.injEq]
        exact eq_comm

/-- The columns of a pin matrix are the section's pins that the filter admits. -/
theorem columns_of_pinMatrix (h : s.pinMatrix b pins model f = .ok matrix) :
    openPins pins f s.pins = .ok matrix.columns := by
  obtain ⟨columns, hcolumns, h⟩ := exists_of_bind_eq_ok h
  simp only at h
  split at h
  · cases h
    exact hcolumns
  · obtain ⟨cells, -, h⟩ := exists_of_bind_eq_ok h
    cases h
    exact hcolumns

/-- A pin matrix in full: a row for each available slot that is not reserved, and a column for each
admitted pin. -/
theorem pinMatrix_eq_ok {columns rowSlots : List Nat} {price : Nat → Nat → Cost}
    (hcolumns : openPins pins f s.pins = .ok columns)
    (hrows : (b.free s.first s.stop).filter (!f.reserved.contains ·) = rowSlots)
    (hprice : ∀ pin ∈ columns, ∀ i ∈ rowSlots, ∀ slot, b.slots[i]? = some slot →
      model pin slot.pos = .ok (price pin i)) :
    s.pinMatrix b pins model f = .ok
      (if rowSlots.isEmpty || columns.isEmpty then { columns }
        else { cells := rowSlots.map fun i => columns.map (price · i), rowSlots, columns }) := by
  have hcells : rowSlots.mapM (slotRow b model columns) =
      .ok (rowSlots.map fun i => columns.map (price · i)) := by
    refine mapM_eq_ok fun i hi => ?_
    have hfree := (Boundary.mem_free.mp (List.mem_of_mem_filter (hrows ▸ hi))).2.2
    obtain ⟨slot, hslot, -⟩ := (Option.any_eq_true _ _).mp hfree
    rw [slotRow, Boundary.slot_eq_ok.mpr hslot]
    exact mapM_eq_ok fun pin hpin => hprice pin hpin i hi slot hslot
  unfold pinMatrix
  simp only [hcolumns, hrows, hcells, Bind.bind, Except.bind]
  split <;> rfl

/-! ### Blocks -/

/-- The rows of a matrix are available blocks of `size` slots, no two of which meet. -/
structure Blocks (b : Boundary) (size : Nat) (rowSlots : List Nat) : Prop where
  free : ∀ start ∈ rowSlots, ∀ k < size, b.isAvailable (start + k)
  apart : rowSlots.Pairwise fun start other => start + size ≤ other

/-- Two rows share no slot. -/
theorem Blocks.disjoint {rowSlots : List Nat} (h : Blocks b size rowSlots) {row other : Nat}
    {start start' j k : Nat} (hne : row ≠ other) (hrow : rowSlots[row]? = some start)
    (hother : rowSlots[other]? = some start') (hj : j < size) (hk : k < size) :
    start + j ≠ start' + k := by
  obtain ⟨hlt, rfl⟩ := List.getElem?_eq_some_iff.mp hrow
  obtain ⟨hlt', rfl⟩ := List.getElem?_eq_some_iff.mp hother
  have hpairwise := List.pairwise_iff_getElem.mp h.apart
  rcases Nat.lt_or_gt_of_ne hne with hlt'' | hlt''
  · have := hpairwise _ _ hlt hlt' hlt''
    omega
  · have := hpairwise _ _ hlt' hlt hlt''
    omega

/-- The starts of the blocks that lie side by side in the section. -/
def blockStarts (s : Section) (size : Nat) : List Nat :=
  (List.range ((s.stop - s.first) / size)).map (s.first + · * size)

/-- The starts of the blocks all of whose slots are available. -/
def openBlocks (s : Section) (b : Boundary) (size : Nat) : List Nat :=
  (s.blockStarts size).filter fun start => (List.range' start size).all b.isAvailable

theorem blockStarts_bounds (h : start ∈ s.blockStarts size) :
    0 < size ∧ s.first ≤ start ∧ start + size ≤ s.stop := by
  obtain ⟨j, hj, rfl⟩ := List.mem_map.mp h
  have hj := List.mem_range.mp hj
  have hpos : 0 < size := by
    by_contra hzero
    rw [Nat.eq_zero_of_not_pos hzero, Nat.div_zero] at hj
    exact Nat.not_lt_zero j hj
  have hmul := Nat.mul_le_mul_right size hj
  have hdiv := Nat.div_mul_le_self (s.stop - s.first) size
  rw [Nat.succ_mul] at hmul
  omega

theorem blockStarts_nodup (s : Section) (size : Nat) : (s.blockStarts size).Nodup := by
  cases size with
  | zero => simp [blockStarts]
  | succ size =>
    refine List.nodup_range.map fun i j heq => ?_
    exact Nat.eq_of_mul_eq_mul_right (Nat.succ_pos size) (Nat.add_left_cancel heq)

theorem mem_openBlocks : start ∈ s.openBlocks b size ↔
    start ∈ s.blockStarts size ∧ ∀ k < size, b.isAvailable (start + k) := by
  rw [openBlocks, List.mem_filter, List.all_eq_true]
  refine and_congr_right fun _ => ⟨fun h k hk => h _ ?_, fun h i hi => ?_⟩
  · exact List.mem_range'_1.mpr ⟨Nat.le_add_right _ _, by omega⟩
  · obtain ⟨hle, hlt⟩ := List.mem_range'_1.mp hi
    have := h (i - start) (by omega)
    rwa [Nat.add_sub_cancel' hle] at this

/-- A look through a block that comes to an end says whether all of it is available. -/
theorem eq_of_blockFree {free : Bool} (h : blockFree b start size = .ok free) :
    free = (List.range' start size).all b.isAvailable := by
  induction size generalizing start with
  | zero =>
    cases h
    rfl
  | succ size ih =>
    obtain ⟨slot, hslot, h⟩ := exists_of_bind_eq_ok h
    rw [List.range'_succ, List.all_cons, Boundary.isAvailable_of_slot hslot]
    split at h
    · rename_i havailable
      rw [havailable, Bool.true_and]
      exact ih h
    · rename_i havailable
      cases h
      rw [Bool.eq_false_iff.mpr havailable, Bool.false_and]

theorem eq_of_freeStarts {starts found : List Nat} (h : freeStarts b size starts = .ok found) :
    found = starts.filter fun start => (List.range' start size).all b.isAvailable := by
  induction starts generalizing found with
  | nil =>
    cases h
    rfl
  | cons start starts ih =>
    obtain ⟨free, hfree, h⟩ := exists_of_bind_eq_ok h
    obtain ⟨others, hrest, h⟩ := exists_of_bind_eq_ok h
    rw [List.filter_cons, ← eq_of_blockFree hfree, ← ih hrest]
    exact (Except.ok.inj h).symm

/-- The candidates are the blocks whose slots are available, also where the section sticks out of
the boundary. -/
theorem eq_of_candidateStarts {starts : List Nat} (h : s.candidateStarts b size = .ok starts) :
    starts = s.openBlocks b size :=
  eq_of_freeStarts h

theorem openBlocks_apart (s : Section) (b : Boundary) (size : Nat) :
    Blocks b size (s.openBlocks b size) := by
  refine ⟨fun start hstart => (mem_openBlocks.mp hstart).2, List.Pairwise.filter _ ?_⟩
  rw [blockStarts, List.pairwise_map]
  refine List.pairwise_lt_range.imp fun {i j} hlt => ?_
  have := Nat.mul_le_mul_right size (Nat.succ_le_of_lt hlt)
  rw [Nat.succ_mul] at this
  omega

/-- A block inside the boundary is looked through. -/
theorem blockFree_eq (h : start + size ≤ b.size) :
    blockFree b start size = .ok ((List.range' start size).all b.isAvailable) := by
  suffices hends : ∃ free, blockFree b start size = .ok free by
    obtain ⟨free, hfree⟩ := hends
    rw [hfree, eq_of_blockFree hfree]
  induction size generalizing start with
  | zero => exact ⟨true, rfl⟩
  | succ size ih =>
    have hlt : start < b.slots.size := Nat.lt_of_lt_of_le (by omega) h
    obtain ⟨free, hrest⟩ : ∃ free, blockFree b (start + 1) size = .ok free := ih (by omega)
    rw [blockFree, Boundary.slot_eq_ok.mpr (Array.getElem?_eq_getElem hlt)]
    simp only [Bind.bind, Except.bind, hrest]
    split
    · exact ⟨free, rfl⟩
    · exact ⟨false, rfl⟩

theorem freeStarts_eq {starts : List Nat} (h : ∀ start ∈ starts, start + size ≤ b.size) :
    freeStarts b size starts =
      .ok (starts.filter fun start => (List.range' start size).all b.isAvailable) := by
  induction starts with
  | nil => rfl
  | cons start starts ih =>
    obtain ⟨hstart, hrest⟩ := List.forall_mem_cons.mp h
    rw [freeStarts, blockFree_eq hstart, ih hrest, List.filter_cons]
    rfl

/-- In a section on the boundary the candidates are the blocks whose slots are available. -/
theorem candidateStarts_eq (size : Nat) (h : s.stop ≤ b.size) :
    s.candidateStarts b size = .ok (s.openBlocks b size) := by
  refine freeStarts_eq fun start hstart => ?_
  have := (blockStarts_bounds (s := s) hstart).2.2
  omega

theorem groupMatrix_blocks {n : Int} (h : s.groupMatrix b model n = .ok matrix) :
    Blocks b n.toNat matrix.rowSlots := by
  obtain ⟨starts, hstarts, h⟩ := exists_of_bind_eq_ok h
  split at h
  · cases h
    exact ⟨fun _ hmem => (nomatch hmem), .nil⟩
  · obtain ⟨cells, -, h⟩ := exists_of_bind_eq_ok h
    cases h
    exact eq_of_candidateStarts hstarts ▸ openBlocks_apart s b n.toNat

/-- No group of a section is larger than its blocks. -/
theorem size_le_blockSize {g : PinGroup} (hg : g ∈ s.groups) : g.size ≤ s.blockSize := by
  have hfold : ∀ (sizes : List Nat) (n : Nat), n ≤ sizes.foldl max n ∧
      ∀ k ∈ sizes, k ≤ sizes.foldl max n := by
    intro sizes
    induction sizes with
    | nil => exact fun n => ⟨Nat.le_refl n, fun _ hk => nomatch hk⟩
    | cons size sizes ih =>
      intro n
      obtain ⟨hstart, hmem⟩ := ih (max n size)
      refine ⟨by rw [List.foldl_cons]; omega, fun k hk => ?_⟩
      rw [List.foldl_cons]
      rcases List.mem_cons.mp hk with rfl | hk
      · omega
      · exact hmem k hk
  exact (hfold _ 0).2 _ (List.mem_map_of_mem hg)

end Section

end PinRing
