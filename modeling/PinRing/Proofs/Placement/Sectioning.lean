import Mathlib.Data.List.Pairwise
import Mathlib.Tactic.Common
import PinRing.Placement.Sectioning

/-! The sections of a boundary lie one behind the other. -/

namespace PinRing.Boundary

theorem runsFrom_bounds (i : Nat) (es : List Edge) :
    ∀ r ∈ runsFrom i es, i ≤ r.first ∧ r.stop ≤ i + es.length := by
  induction es generalizing i with
  | nil => exact fun _ hr => nomatch hr
  | cons e es ih =>
    have hrest := ih (i + 1)
    rw [runsFrom, List.length_cons]
    cases hruns : runsFrom (i + 1) es with
    | nil =>
      intro r hr
      rw [List.mem_singleton.mp hr]
      exact ⟨Nat.le_refl i, by simp⟩
    | cons s runs =>
      rw [hruns] at hrest
      have hs := hrest s List.mem_cons_self
      have hruns : ∀ r ∈ runs, i ≤ r.first ∧ r.stop ≤ i + (es.length + 1) := by
        intro r hr
        have := hrest r (List.mem_cons_of_mem s hr)
        omega
      simp only
      split
      · exact List.forall_mem_cons.mpr ⟨⟨Nat.le_refl i, by simp only; omega⟩, hruns⟩
      · refine List.forall_mem_cons.mpr ⟨⟨Nat.le_refl i, by simp only; omega⟩, ?_⟩
        exact List.forall_mem_cons.mpr ⟨by omega, hruns⟩

theorem runsFrom_behind (i : Nat) (es : List Edge) :
    (runsFrom i es).Pairwise fun r s => r.stop ≤ s.first := by
  induction es generalizing i with
  | nil => exact .nil
  | cons e es ih =>
    have hrest := ih (i + 1)
    have hbounds := runsFrom_bounds (i + 1) es
    rw [runsFrom]
    cases hruns : runsFrom (i + 1) es with
    | nil => exact List.pairwise_singleton _ _
    | cons s runs =>
      rw [hruns] at hrest hbounds
      obtain ⟨hs, hpairwise⟩ := List.pairwise_cons.mp hrest
      simp only
      split
      · exact List.pairwise_cons.mpr ⟨hs, hpairwise⟩
      · exact List.pairwise_cons.mpr ⟨fun r hr => (hbounds r hr).1, hrest⟩

theorem stretches_bounds (r : EdgeRun) (size : Nat) :
    ∀ a ∈ r.stretches size, r.first ≤ a.1 ∧ a.2 ≤ r.stop := by
  intro a ha
  obtain ⟨k, -, rfl⟩ := List.mem_map.mp ha
  exact ⟨Nat.le_add_right _ _, Nat.min_le_right _ _⟩

theorem stretches_behind (r : EdgeRun) (size : Nat) :
    (r.stretches size).Pairwise fun a b => a.2 ≤ b.1 := by
  rw [EdgeRun.stretches, List.pairwise_map]
  refine List.pairwise_lt_range.imp fun {k l} hlt => ?_
  have := Nat.mul_le_mul_right size (show k + 1 ≤ l from hlt)
  omega

variable (b : Boundary) (size : Nat)

theorem runSections_bounds (r : EdgeRun) :
    ∀ s ∈ b.runSections size r, r.first ≤ s.first ∧ s.stop ≤ r.stop ∧
      s.room = b.countFree s.first s.stop := by
  intro s hs
  obtain ⟨a, ha, rfl⟩ := List.mem_map.mp hs
  exact ⟨(stretches_bounds r size a ha).1, (stretches_bounds r size a ha).2, rfl⟩

/-- No two sections share a slot, and they come in boundary order. -/
theorem sections_behind : (b.sections size).Pairwise fun s t => s.stop ≤ t.first := by
  refine List.Pairwise.filter _ (List.pairwise_flatMap.mpr ⟨fun r _ => ?_, ?_⟩)
  · rw [runSections, List.pairwise_map]
    exact stretches_behind r size
  · refine (runsFrom_behind 0 _).imp fun {r r'} hle s hs t ht => ?_
    have hs := (b.runSections_bounds size r s hs).2.1
    have ht := (b.runSections_bounds size r' t ht).1
    omega

/-- Every section lies on the boundary and has an available slot. -/
theorem sections_bounds :
    ∀ s ∈ b.sections size, s.stop ≤ b.size ∧ 0 < b.countFree s.first s.stop := by
  intro s hs
  obtain ⟨hs, hroom⟩ := List.mem_filter.mp hs
  obtain ⟨r, hr, hs⟩ := List.mem_flatMap.mp hs
  obtain ⟨-, hstop, hcount⟩ := b.runSections_bounds size r s hs
  have hrun := (runsFrom_bounds 0 _ r hr).2
  rw [List.length_map, Array.length_toList] at hrun
  have hroom := of_decide_eq_true hroom
  refine ⟨?_, by omega⟩
  unfold Boundary.size
  omega

/-- The room of a section is the number of its available slots. -/
theorem sections_room : ∀ s ∈ b.sections size, s.room = b.countFree s.first s.stop := by
  intro s hs
  obtain ⟨r, -, hs⟩ := List.mem_flatMap.mp (List.mem_filter.mp hs).1
  exact (b.runSections_bounds size r s hs).2.2

end PinRing.Boundary
