import PinRing.Proofs.Placement.Opposite
import PinRing.Proofs.Placement.Report

/-! The pass over mirrored pins on a board where every available slot has an available slot opposite
to it.  Whenever a pin can be put on its slot, its partner can be put on the slot opposite, so the
pass goes through and no pair fails. -/

namespace PinRing

/-- Every pin has a partner or none, and partners are mutual. -/
structure PinTable.Mutual (t : PinTable) : Prop where
  total : ∀ i < t.size, ∃ partner, t.partner i = .ok partner
  symm : ∀ i j, t.partner i = .ok (some j) → t.partner j = .ok (some i)
  ne : ∀ i j, t.partner i = .ok (some j) → i ≠ j

open Board

variable {reflect : Reflection} {start board : Board} {cs : List Commit} {i j : Nat}

theorem Board.pairs_pairScope (ht : start.pins.Mutual) (hswaps : reflect.Swaps)
    (hij : start.pins.partner i = .ok (some j)) : pairScope.Pairs reflect start i j where
  partner := hij
  back := ht.symm
  ne := ht.ne i j hij
  single _ hk := by cases hk
  group _ hg := hg.elim
  undone _ := hswaps.symm

/-- Available slots have available ones opposite to them, and the pins of a pair face each other. -/
structure Board.Facing (reflect : Reflection) (start b : Board) : Prop where
  frame : Frame start b
  apart : b.boundary.Apart
  closed : Closed reflect b
  faces : ∀ i j, start.pins.partner i = .ok (some j) → Faces reflect b i j

theorem Board.Facing.moves (ht : start.pins.Mutual) (hswaps : reflect.Swaps)
    (h : Facing reflect start board) (hm : Moves (some reflect) pairScope board cs) :
    Facing reflect start (board.takeAll cs) where
  frame := h.frame.trans hm.isOpen.frame
  apart := hm.isOpen.frame.apart h.apart
  closed := h.closed.moves h.apart hswaps hm
  faces i j hij := hm.faces (pairs_pairScope ht hswaps hij) h.frame (h.faces i j hij)

namespace PinPass

variable {matrix : CostMatrix} {a : Assignment} {mode : Mode} {plan : Plan} {col pin : Nat}

/-- The columns of a matrix are pins, and a column with a row has a slot and a cost. -/
structure Shaped (board : Board) (matrix : CostMatrix) (a : Assignment) : Prop where
  pin : ∀ i ∈ matrix.columns, i < board.pins.size
  cell : ∀ col row, col < matrix.columns.length → a.rowOf? col = some row →
    ∃ slot s cost, matrix.rowSlots[row]? = some slot ∧ board.boundary.slots[slot]? = some s ∧
      matrix.cell row col = .ok cost

variable (ht : start.pins.Mutual) (hswaps : reflect.Swaps) (hfacing : Facing reflect start board)

include ht hswaps hfacing

/-- The partner of a pin that can be put on its slot finds the slot opposite. -/
theorem exists_partnerSlot {p : Pin} {row slot : Nat} (hreflection : mode.reflection = some reflect)
    (hplan : plan.Holds pairScope board mode)
    (hmatched : Matched board matrix a plan col pin p row slot)
    (hpartner : board.pins.partner pin = .ok (some j)) :
    ∃ other, partnerSlot board mode.reflection plan j slot = .ok (.ok other) := by
  have hmoves := hreflection ▸ hplan.moves
  have hopen := hmoves.isOpen
  have hnext := hfacing.moves ht hswaps hmoves
  have hframe := hopen.frame
  -- In the plan so far the pin is not placed, so neither is its partner.
  have hunplaced : ¬(board.takeAll plan.commits).pins.isPlaced j := by
    have hfaces := hnext.faces pin j (hfacing.frame.partner pin ▸ hpartner)
    rw [← hfaces.isPlaced_iff]
    exact hplan.unplaced hmatched.at_pin hmatched.unplaced hmatched.pin_fresh
  rw [hopen.isPlaced, not_or, ← Plan.hasPin_iff] at hunplaced
  obtain ⟨_, name, -, -, hindex⟩ := PinTable.partner_eq_ok.mp hpartner
  obtain ⟨q, hq, -⟩ := PinTable.pin_of_indexOf? hindex
  have hq := PinTable.pin_eq_ok.mpr hq
  rw [PinTable.isPlaced_of_pin hq] at hunplaced
  -- The slot is still available, so the one opposite is as well.
  have hfree : (board.takeAll plan.commits).boundary.isAvailable slot := by
    rw [hopen.isAvailable, ← Plan.hasSlot_iff, hmatched.slot_fresh]
    exact ⟨hmatched.free, Bool.false_ne_true⟩
  obtain ⟨other, hopposite, hother⟩ := hnext.closed slot hfree
  rw [hopen.isAvailable, ← Plan.hasSlot_iff] at hother
  have hne := hopposite.ne hswaps
  obtain ⟨s, p, hs, ⟨image, hreflect, himage⟩, hat⟩ := hopposite.frame hframe.symm
  refine ⟨other, ?_⟩
  simp [partnerSlot, hreflection, hq, hunplaced.1, hunplaced.2, Boundary.slot_eq_ok.mpr hs,
    hreflect, himage, hat, hne.symm, hother.1, hother.2, Bind.bind, Except.bind, pure, Except.pure]

/-- A column is planned without a fault, and its pair does not fail. -/
theorem planColumn_pairs (hmode : mode.mirrored = true)
    (hreflection : mode.reflection = some reflect) (hshaped : Shaped board matrix a)
    (hplan : plan.Holds pairScope board mode)
    (hcol : matrix.columns[col]? = some pin) :
    (planColumn board matrix a mode plan (col, pin)).answer = .ok () ∧
      (planColumn board matrix a mode plan (col, pin)).state.failures = plan.failures := by
  have hlt := hshaped.pin pin (List.mem_of_getElem? hcol)
  have hp := PinTable.pin_eq_ok.mpr (Array.getElem?_eq_getElem hlt)
  obtain ⟨partner?, hpartner⟩ := ht.total pin (hfacing.frame.size_pins ▸ hlt)
  rw [← hfacing.frame.partner] at hpartner
  simp only [planColumn, hp, Outcome.lift_ok, Outcome.done_andThen]
  cases hrow : a.rowOf? col with
  | none => exact ⟨rfl, rfl⟩
  | some row =>
  obtain ⟨slot, s, cost, hslot, hs, hcell⟩ :=
    hshaped.cell col row (List.getElem?_eq_some_iff.mp hcol).1 hrow
  simp only [hpartner, Outcome.lift_ok, Outcome.done_andThen]
  split
  · exact ⟨rfl, rfl⟩
  rename_i hskip
  simp only [CostMatrix.rowSlot_eq_ok.mpr hslot, Boundary.slot_eq_ok.mpr hs, Outcome.lift_ok,
    Outcome.done_andThen]
  split
  · exact ⟨rfl, rfl⟩
  rename_i htaken
  simp only [Bool.or_eq_true, not_or, Bool.not_eq_true, Bool.not_eq_false'] at hskip htaken
  obtain ⟨⟨hunplaced, hpinFresh⟩, halone⟩ := hskip
  cases partner? with
  | none => simp [hmode] at halone
  | some j =>
    have hmatched : Matched board matrix a plan col pin _ row slot :=
      ⟨hp, hunplaced, hpinFresh, hrow, CostMatrix.rowSlot_eq_ok.mpr hslot,
        (Boundary.isAvailable_of_slot (Boundary.slot_eq_ok.mpr hs)).trans htaken.2, htaken.1⟩
    obtain ⟨other, hfound⟩ :=
      exists_partnerSlot ht hswaps hfacing hreflection hplan hmatched hpartner
    simp [hmode, hfound, hcell]

/-- The whole plan is made, and no pair fails. -/
theorem plan_pairs_all (hmode : mode.mirrored = true)
    (hreflection : mode.reflection = some reflect) (hshaped : Shaped board matrix a) :
    (PinPass.plan board matrix a mode).answer = .ok () ∧
      (PinPass.plan board matrix a mode).state.Holds pairScope board mode ∧
      (PinPass.plan board matrix a mode).state.failures = [] := by
  have horigin : mode.origin = .pair := by rw [Mode.origin, if_pos hmode]
  refine Outcome.forEach_finishes _ _ _
    (P := fun _ (plan : Plan) => plan.Holds pairScope board mode ∧ plan.failures = [])
    ?_ ⟨⟨.nil board, ?_⟩, rfl⟩
  · rintro done ⟨col, pin⟩ plan hpre ⟨hplan, hnone⟩
    have hmem := hpre.subset (List.mem_append_right done (List.mem_singleton_self (col, pin)))
    obtain ⟨⟨pin', col'⟩, hcolumn, heq⟩ := List.mem_map.mp hmem
    obtain ⟨rfl, rfl⟩ := Prod.mk.inj heq
    have hcol := List.mem_zipIdx_iff_getElem?.mp hcolumn
    obtain ⟨hanswer, hfailures⟩ :=
      planColumn_pairs ht hswaps hfacing hmode hreflection hshaped hplan hcol
    refine ⟨hanswer, hplan.planned horigin (planColumn_planned board matrix a mode plan _ _), ?_⟩
    rw [hfailures, hnone]
  · intro c hc
    cases hc

/-- The pass goes through, and places pairs only. -/
theorem run_pairs_all (hmode : mode.mirrored = true) (hreflection : mode.reflection = some reflect)
    (hshaped : Shaped board matrix a) :
    ∃ result, (run board matrix a mode).answer = .ok result ∧ result.failures = [] := by
  cases hempty : matrix.empty with
  | true => exact ⟨{}, by rw [run, if_pos hempty]; rfl, rfl⟩
  | false =>
    obtain ⟨hanswer, hplan, hnone⟩ :=
      plan_pairs_all ht hswaps hfacing hmode hreflection hshaped
    simp only [run, hempty, Bool.false_eq_true, if_false, hanswer, carryOut, hnone,
      hplan.forEach_commit, Outcome.done_andThen, List.isEmpty_nil,
      Bool.not_true, Bool.and_false]
    exact ⟨_, rfl, rfl⟩

end PinPass

end PinRing
