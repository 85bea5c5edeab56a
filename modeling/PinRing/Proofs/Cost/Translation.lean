import PinRing.Cost.Matrix
import PinRing.Proofs.Board.Translation
import PinRing.Proofs.Except

/-! The cost matrices of a board that has been moved are those of the board as it was. -/

namespace PinRing.Section

variable {model model' : CostModel} {d : Point} (b : Boundary) (pins : PinTable) (s : Section)

theorem openPins_translate (f : PinFilter) (l : List Nat) :
    openPins (pins.translate d) f l = (openPins pins f l).mapError (·.translate d) := by
  have hadmits : ∀ p, f.admits (pins.translate d) (p.translate d) = f.admits pins p := fun p => by
    rw [PinFilter.admits, p.placed_translate d]
    rfl
  induction l with
  | nil => rfl
  | cons i rest ih =>
    rw [openPins, pins.pin_translate, ih, openPins]
    cases pins.pin i with
    | error f => rfl
    | ok p =>
      cases openPins pins f rest with
      | error f => rfl
      | ok others =>
        simp only [Except.map, mapError_ok, bind, Except.bind, hadmits]
        rfl

theorem slotRow_translate (h : model.MovesTo model' d) (columns : List Nat) (slot : Nat) :
    slotRow (b.translate d) model' columns slot =
      (slotRow b model columns slot).mapError (·.translate d) := by
  rw [slotRow, b.slot_translate, slotRow]
  cases b.slot slot with
  | error f => rfl
  | ok t => exact mapM_mapError (fun pin => h pin t.pos) columns

theorem pinMatrix_translate (h : model.MovesTo model' d) (f : PinFilter) :
    s.pinMatrix (b.translate d) (pins.translate d) model' f =
      (s.pinMatrix b pins model f).mapError (·.translate d) := by
  rw [pinMatrix, openPins_translate, b.free_translate, pinMatrix]
  cases openPins pins f s.pins with
  | error f => rfl
  | ok columns =>
    simp only [mapError_ok, bind, Except.bind]
    split
    · rfl
    · rw [mapM_mapError (slotRow_translate b h columns)]
      cases List.mapM (slotRow b model columns) _ <;> rfl

theorem blockFree_translate (start size : Nat) :
    blockFree (b.translate d) start size = (blockFree b start size).mapError (·.translate d) := by
  induction size generalizing start with
  | zero => rfl
  | succ size ih =>
    rw [blockFree, b.slot_translate, blockFree]
    cases b.slot start with
    | error f => rfl
    | ok t =>
      have hfree : (t.translate d).available = t.available := rfl
      simp only [Except.map, mapError_ok, bind, Except.bind, hfree, ih]
      split <;> rfl

theorem freeStarts_translate (size : Nat) (starts : List Nat) :
    freeStarts (b.translate d) size starts =
      (freeStarts b size starts).mapError (·.translate d) := by
  induction starts with
  | nil => rfl
  | cons start rest ih =>
    rw [freeStarts, blockFree_translate, ih, freeStarts]
    cases blockFree b start size with
    | error f => rfl
    | ok _ => cases freeStarts b size rest <;> rfl

theorem blockRow_translate (h : model.MovesTo model' d) (start : Nat) :
    s.blockRow (b.translate d) model' start =
      (s.blockRow b model start).mapError (·.translate d) := by
  rw [blockRow, b.slot_translate, blockRow]
  cases b.slot start with
  | error f => rfl
  | ok t => exact mapM_mapError (fun g => h.groupCost g.members t.pos) s.groups

theorem groupMatrix_translate (h : model.MovesTo model' d) (size : Int) :
    s.groupMatrix (b.translate d) model' size =
      (s.groupMatrix b model size).mapError (·.translate d) := by
  rw [groupMatrix, candidateStarts, freeStarts_translate, groupMatrix, candidateStarts]
  cases freeStarts b size.toNat _ with
  | error f => rfl
  | ok rowSlots =>
    simp only [mapError_ok, bind, Except.bind]
    split
    · rfl
    · rw [mapM_mapError (s.blockRow_translate b h)]
      cases List.mapM (s.blockRow b model) rowSlots <;> rfl

end PinRing.Section
