import Mathlib.Data.List.Perm.Basic
import PinRing.Proofs.Placement.Run

/-! What a run does to the slots of a boundary. -/

namespace PinRing

namespace Boundary

/-- The slots of `after` that carry a pin and did not before. -/
def newlyUsed (before after : Boundary) : List Nat :=
  (List.range after.size).filter fun i => after.isUsed i && !before.isUsed i

/-- From `before` to `after`, each commit took an available slot of its own, which is now used, and
out of use if it went to a group; no other slot was touched. -/
structure Filled (before after : Boundary) (cs : List Commit) : Prop where
  size_eq : after.size = before.size
  slots_nodup : (cs.map (·.slot)).Nodup
  free : ∀ c ∈ cs, before.isAvailable c.slot
  keeps_used : ∀ i, before.isUsed i → after.isUsed i
  keeps_blocked : ∀ i, before.isBlocked i → after.isBlocked i
  newly_used : ∀ i, after.isUsed i ∧ ¬before.isUsed i ↔ ∃ c ∈ cs, c.slot = i
  newly_blocked : ∀ i,
    after.isBlocked i ∧ ¬before.isBlocked i ↔ ∃ c ∈ cs, c.origin = .group ∧ c.slot = i

theorem lt_of_isUsed {b : Boundary} {i : Nat} (h : b.isUsed i) : i < b.size := by
  obtain ⟨s, hs, -⟩ := (Option.any_eq_true _ _).mp h
  exact (Array.getElem?_eq_some_iff.mp hs).1

/-- As many slots become used as there are commits. -/
theorem Filled.length_newlyUsed {before after : Boundary} {cs : List Commit}
    (h : Filled before after cs) : (newlyUsed before after).length = cs.length := by
  have hperm : (newlyUsed before after).Perm (cs.map (·.slot)) := by
    refine (List.perm_ext_iff_of_nodup (List.nodup_range.filter _) h.slots_nodup).mpr fun i => ?_
    have hnew := h.newly_used i
    simp only [List.mem_filter, List.mem_range, Bool.and_eq_true, Bool.not_eq_true',
      List.mem_map, ← hnew, Bool.not_eq_true]
    exact ⟨fun hi => hi.2, fun hi => ⟨lt_of_isUsed hi.1, hi⟩⟩
  rw [hperm.length_eq, List.length_map]

end Boundary

open Board

theorem Board.Open.filled {b : Board} {cs : List Commit} (h : b.Open cs) :
    Boundary.Filled b.boundary (b.takeAll cs).boundary cs where
  size_eq := h.frame.size_boundary
  slots_nodup := h.slots_nodup
  free := fun c hc => (h.admits c hc).free
  keeps_used := fun i hi => (h.isUsed i).mpr (.inl hi)
  keeps_blocked := fun i hi => (h.isBlocked i).mpr (.inl hi)
  newly_used := by
    intro i
    rw [h.isUsed, List.mem_map]
    constructor
    · rintro ⟨hused | hnew, hbefore⟩
      · exact absurd hused hbefore
      · exact hnew
    · rintro ⟨c, hc, rfl⟩
      refine ⟨.inr ⟨c, hc, rfl⟩, ?_⟩
      rw [Boundary.not_isUsed_of_isAvailable (h.admits c hc).free]
      exact Bool.false_ne_true
  newly_blocked := by
    intro i
    rw [h.isBlocked]
    constructor
    · rintro ⟨hblocked | ⟨c, hc, hslot, horigin⟩, hbefore⟩
      · exact absurd hblocked hbefore
      · exact ⟨c, hc, horigin, hslot.symm⟩
    · rintro ⟨c, hc, horigin, rfl⟩
      refine ⟨.inr ⟨c, hc, rfl, horigin⟩, ?_⟩
      rw [Boundary.not_isBlocked_of_isAvailable (h.admits c hc).free]
      exact Bool.false_ne_true

/-- A run records its commits, which fill available slots and nothing else, and a run that ends in a
report has placed as many pins as there are slots that became used. -/
theorem run_fills_slots (board : Board) (model : CostModel) (reflection : Option Reflection)
    (config : Config) :
    let ended := run board model reflection config
    ∃ cs, ended.state.1.journal = board.journal ++ cs ∧
      Boundary.Filled board.boundary ended.state.1.boundary cs ∧
      ∀ verdict, ended.answer = .ok verdict →
        (board.boundary.newlyUsed ended.state.1.boundary).length = verdict.report.placed := by
  intro ended
  obtain ⟨cs, hmoves, hboard, hplaced⟩ := run_moves board model reflection config
  have hopen := hmoves.isOpen
  have hfilled : Boundary.Filled board.boundary ended.state.1.boundary cs :=
    hboard ▸ hopen.filled
  refine ⟨cs, ?_, hfilled, fun verdict hverdict => ?_⟩
  · rw [hboard, hopen.journal]
  · rw [hfilled.length_newlyUsed, hplaced verdict hverdict]

end PinRing
