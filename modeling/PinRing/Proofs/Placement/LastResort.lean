import PinRing.Proofs.Placement.Completion

/-! When groups are given a block that one of them cannot pay for.  To the solver such a block has
the weight of the sentinel, so it is given out where the feasible choices together weigh more, and
only there. -/

namespace PinRing

open PinPass Assignment

namespace CostModel

/-- The costs behind bare answers, one for each pin and position. -/
def answers (answer : Nat → Point → Option Int) : CostModel := fun pin pos =>
  .ok (.ofAnswer (answer pin pos))

variable {answer : Nat → Point → Option Int} {model : CostModel} {members : List Nat} {pos : Point}
variable {pin : Nat} {v : Int}

theorem answers_total (answer : Nat → Point → Option Int) : (answers answer).Total :=
  fun pin pos => ⟨.ofAnswer (answer pin pos), rfl⟩

theorem answers_nonneg (hanswer : ∀ pin pos v, answer pin pos = some v → 0 ≤ v)
    (h : answers answer pin pos = .ok (.finite v)) : 0 ≤ v := by
  have h : Cost.ofAnswer (answer pin pos) = .finite v := Except.ok.inj h
  cases hgiven : answer pin pos with
  | none =>
    rw [hgiven] at h
    cases h
  | some w =>
    rw [hgiven, Cost.ofAnswer] at h
    split at h
    · cases h
    · cases h
      exact hanswer pin pos v hgiven

/-- A sum of costs that are not negative is not negative. -/
theorem groupCost_nonneg (hmodel : ∀ pin v, model pin pos = .ok (.finite v) → 0 ≤ v)
    (h : model.groupCost members pos = .ok (.finite v)) : 0 ≤ v := by
  suffices hgo : ∀ total, 0 ≤ total →
      groupCost.go model pos (.finite total) members = .ok (.finite v) → 0 ≤ v from
    hgo 0 (Int.le_refl 0) h
  clear h
  induction members with
  | nil =>
    intro total htotal h
    cases h
    exact htotal
  | cons pin rest ih =>
    intro total htotal h
    rw [groupCost.go] at h
    cases hcost : model pin pos with
    | error f =>
      rw [hcost] at h
      cases h
    | ok cost =>
      rw [hcost] at h
      cases cost with
      | infeasible => cases h
      | finite w =>
        have hw := hmodel pin w hcost
        exact ih (total + w) (by omega) h

end CostModel

theorem Section.blockPrice_nonneg {s : Section} {b : Boundary} {model : CostModel} {k start : Nat}
    {v : Int} (hmodel : ∀ pin pos v, model pin pos = .ok (.finite v) → 0 ≤ v)
    (h : s.blockPrice b model k start = .finite v) : 0 ≤ v := by
  rw [blockPrice] at h
  split at h
  · rename_i g pos hg hpos
    cases hcost : model.groupCost g.members pos with
    | error f =>
      rw [hcost] at h
      cases h
    | ok cost =>
      rw [hcost] at h
      obtain rfl : cost = .finite v := h
      exact CostModel.groupCost_nonneg (fun pin v => hmodel pin pos v) hcost
  · cases h

namespace Solution

variable {price : Nat → Nat → Cost} {pins slots : List Nat} {a : Assignment}
variable {other : List (Nat × Nat)}

/-- Every matched cell holds the price of a pin on its slot. -/
theorem cell_of_mem (h : Solution price pins slots a) {c : Nat × Nat} (hc : c ∈ a.cells) :
    ∃ p ∈ seats (.priced price pins slots) a,
      (CostMatrix.priced price pins slots).cell c.1 c.2 = .ok (price p.1 p.2) := by
  have hpairing := h.complete.pairing
  have hrow := List.getElem?_eq_getElem (hpairing.row_lt c hc)
  have hcol := List.getElem?_eq_getElem (hpairing.col_lt c hc)
  have hperm := cells_inverse_perm h.complete.columns_nodup h.complete.columns_lt
  have hmem : c.swap ∈ (a.inverse pins.length).cells :=
    hperm.mem_iff.mpr (List.mem_map_of_mem hc)
  refine ⟨seat (.priced price pins slots) c.swap, ?_, ?_⟩
  · rw [seats_eq h.complete.columns_nodup]
    exact List.mem_map_of_mem hmem
  · rw [cell_priced hrow hcol]
    simp [seat, CostMatrix.priced, List.getD_eq_getElem?_getD, hrow, hcol]

/-- Against a placement of feasible choices: each infeasible choice of the solution counts for the
sentinel. -/
theorem infeasible_le (h : Solution price pins slots a) (hother : Placement pins slots other)
    (hlength : other.length = min pins.length slots.length)
    (hfeasible : ∀ p ∈ other, (price p.1 p.2).feasible) :
    let chosen := costs price (seats (.priced price pins slots) a)
    Cost.infeasibleCount chosen * Cost.sentinel + Cost.feasibleSum chosen ≤
      Cost.feasibleSum (costs price other) := by
  intro chosen
  have hzero : Cost.infeasibleCount (costs price other) = 0 := by
    refine List.countP_eq_zero.mpr fun c hc => ?_
    obtain ⟨p, hp, rfl⟩ := List.mem_map.mp hc
    simp [hfeasible p hp]
  have hle := h.least other hother hlength
  rw [Cost.sum_weight, Cost.sum_weight, hzero] at hle
  simpa using hle

/-- One infeasible choice alone costs the sentinel. -/
theorem feasible_of_lt (h : Solution price pins slots a)
    (hnonneg : ∀ i slot v, price i slot = .finite v → 0 ≤ v)
    (hlt :
      let chosen := costs price (seats (.priced price pins slots) a)
      Cost.infeasibleCount chosen * Cost.sentinel + Cost.feasibleSum chosen < Cost.sentinel) :
    ∀ c ∈ a.cells, ∃ v, (CostMatrix.priced price pins slots).cell c.1 c.2 = .ok (.finite v) := by
  dsimp only at hlt
  have hsum : 0 ≤ Cost.feasibleSum (costs price (seats (.priced price pins slots) a)) := by
    refine Cost.feasibleSum_nonneg fun v hv => ?_
    obtain ⟨p, -, hp⟩ := List.mem_map.mp hv
    exact hnonneg p.1 p.2 v hp
  have hnone : Cost.infeasibleCount (costs price (seats (.priced price pins slots) a)) = 0 := by
    have hsentinel : Cost.sentinel = 2147483647 := rfl
    rw [hsentinel] at hlt
    omega
  intro c hc
  obtain ⟨p, hp, hcell⟩ := h.cell_of_mem hc
  have hfeasible := List.countP_eq_zero.mp hnone _ (List.mem_map_of_mem hp)
  cases hprice : price p.1 p.2 with
  | finite v => exact ⟨v, hprice ▸ hcell⟩
  | infeasible =>
    rw [hprice] at hfeasible
    exact absurd rfl hfeasible

end Solution

namespace Matching

variable {answer : Nat → Point → Option Int}

/-- The assignment that is worked out for the groups of a section, measured against any other way to
give as many of them a block that each can pay for: one sentinel for each infeasible block given
out, together with the rest of the costs, is no more than the costs of the other way.  Where these
stay below the sentinel, no infeasible block is given out. -/
theorem findGroups_infeasible_le (hanswer : ∀ pin pos v, answer pin pos = some v → 0 ≤ v)
    (sec : Section) (board : Board) (reflection : Option Reflection) (strict : Bool) :
    let m := ofSection sec (CostModel.answers answer) reflection strict
    let found := m.findGroups board
    let price := sec.blockPrice board.boundary m.model
    let chosen := costs price (seats found.state.matrix found.state.assignment)
    (sec.stop ≤ board.boundary.size → found.answer = .ok ()) ∧
      (found.answer = .ok () →
        ∃ starts, sec.candidateStarts board.boundary sec.blockSize = .ok starts ∧
          chosen.length = min sec.groups.length starts.length ∧
          ∀ other, Placement (List.range sec.groups.length) starts other →
            other.length = min sec.groups.length starts.length →
            (∀ p ∈ other, (price p.1 p.2).feasible) →
            Cost.infeasibleCount chosen * Cost.sentinel + Cost.feasibleSum chosen ≤
                Cost.feasibleSum (costs price other) ∧
              (Cost.feasibleSum (costs price other) < Cost.sentinel →
                ∀ c ∈ found.state.assignment.cells,
                  ∃ v, found.state.matrix.cell c.1 c.2 = .ok (.finite v))) := by
  intro m found price chosen
  have htotal : m.model.Total := CostModel.answers_total answer
  by_cases hne : sec.groups = []
  · -- Without groups there are no blocks either, and nothing is given out.
    obtain ⟨hstarts, hfound⟩ := findGroups_of_noGroups (m := m) hne rfl board
    have hchosen : chosen = [] := by
      simp only [chosen, found, hfound.2]
      rfl
    refine ⟨fun _ => hfound.1, fun _ => ⟨[], hstarts, ?_, fun other _ hlength _ => ?_⟩⟩
    · rw [hchosen, hne]
      rfl
    · rw [hne] at hlength
      obtain rfl := List.length_eq_zero_iff.mp hlength
      rw [hchosen]
      simp only [found, hfound.2]
      exact ⟨Int.le_refl 0, fun _ _ hc => nomatch hc⟩
  · refine ⟨fun hstop => ?_, fun hanswer' => ?_⟩
    · obtain ⟨-, a, -, hok, -⟩ :=
        exists_findGroups (m := m) htotal hne (Section.candidateStarts_eq _ hstop)
      exact hok
    · obtain ⟨matrix, -, hmatrix, -, -⟩ := adopt_ok hanswer'
      obtain ⟨starts, hstarts, -⟩ := exists_of_bind_eq_ok hmatrix
      obtain ⟨rfl, a, ha, -, hstate⟩ := exists_findGroups (m := m) htotal hne hstarts
      have hsolution : Solution price (List.range sec.groups.length) (m.starts board) a := ha
      have hnonneg : ∀ k start v, price k start = .finite v → 0 ≤ v := fun _ _ _ =>
        Section.blockPrice_nonneg fun _ _ _ => CostModel.answers_nonneg hanswer
      simp only [chosen, found, hstate]
      refine ⟨m.starts board, hstarts, ?_, fun other hother hlength hfeasible => ?_⟩
      · rw [costs, List.length_map]
        exact ha.length_blocks
      have hle := hsolution.infeasible_le hother (by rwa [List.length_range]) hfeasible
      exact ⟨hle, fun hsmall => hsolution.feasible_of_lt hnonneg (Int.lt_of_le_of_lt hle hsmall)⟩

/-- A section of four slots with one group of two pins.  The first pin may not go to the first
slot, and every other choice costs the same. -/
def busOfTwo : Section × Board :=
  let slot (x : Int) : Slot := { pos := ⟨x, 0⟩, layer := 1, edge := .bottom }
  let bus : PinGroup := { members := [0, 1], name := "bus" }
  ({ first := 0, stop := 4, edge := .bottom, room := 4, groups := [bus] },
    { boundary := { slots := #[slot 10, slot 20, slot 30, slot 40] }
      pins :=
        { pins := #[{ name := "a", grouped := true }, { name := "b", grouped := true }]
          groups := [bus] } })

/-- The answers that go with it. -/
def awayFromTen (cost : Int) (pin : Nat) (pos : Point) : Option Int :=
  if pin = 0 ∧ pos.x = 10 then none else some cost

/-- At small costs the group gets the block that it can pay for. -/
theorem findGroups_infeasible_le_busOfTwo :
    let answer := awayFromTen 5
    let m := ofSection busOfTwo.1 (CostModel.answers answer) none true
    let found := m.findGroups busOfTwo.2
    (∀ pin pos v, answer pin pos = some v → 0 ≤ v) ∧
      ∀ c ∈ found.state.assignment.cells,
        ∃ v, found.state.matrix.cell c.1 c.2 = .ok (.finite v) := by
  intro answer m found
  have hanswer : ∀ pin pos v, answer pin pos = some v → 0 ≤ v := by
    intro pin pos v h
    simp only [answer, awayFromTen] at h
    split at h
    · cases h
    · cases h
      decide
  obtain ⟨hends, hbest⟩ := findGroups_infeasible_le hanswer busOfTwo.1 busOfTwo.2 none true
  obtain ⟨starts, hstarts, -, hother⟩ := hbest (hends (by decide))
  obtain rfl : starts = [0, 2] := Except.ok.inj (hstarts.symm.trans (by decide +kernel))
  have hplacement : Placement [0] [0, 2] [(0, 2)] := by
    constructor <;> decide
  exact ⟨hanswer, (hother [(0, 2)] hplacement rfl (by decide +kernel)).2 (by decide +kernel)⟩

/-- At costs close to the sentinel, none of which reaches it, the group gets the block that it
cannot pay for, although the other one is free as well. -/
theorem findGroups_infeasible_busOfTwo :
    let answer := awayFromTen 2147483646
    let m := ofSection busOfTwo.1 (CostModel.answers answer) none true
    let found := m.findGroups busOfTwo.2
    (∀ pin pos v, answer pin pos = some v → 0 ≤ v ∧ v < Cost.sentinel) ∧
      busOfTwo.1.candidateStarts busOfTwo.2.boundary 2 = .ok [0, 2] ∧
      (busOfTwo.1.blockPrice busOfTwo.2.boundary m.model 0 2).feasible ∧
      found.answer = .ok () ∧ found.state.assignment = [some 0, none] ∧
      found.state.matrix.cell 0 0 = .ok .infeasible := by
  intro answer m found
  refine ⟨fun pin pos v h => ?_, by decide +kernel⟩
  simp only [answer, awayFromTen] at h
  split at h
  · cases h
  · cases h
    decide

end Matching

end PinRing
