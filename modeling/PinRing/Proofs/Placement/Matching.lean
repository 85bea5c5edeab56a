import PinRing.Placement.Matching
import PinRing.Proofs.Placement.GroupPass
import PinRing.Proofs.Placement.PinPass

/-! The steps of one section: what is committed right after it was matched makes moves. -/

namespace PinRing

open Board

namespace Matching

variable {m : Matching} {board : Board} {built : Except Fault CostMatrix}

theorem adopt_keeps (m : Matching) (built : Except Fault CostMatrix)
    (log : CostMatrix → List LogEntry) :
    ∃ matrix assignment, (m.adopt built log).state = { m with matrix, assignment } := by
  unfold adopt
  split
  · exact ⟨m.matrix, m.assignment, rfl⟩
  · split
    · exact ⟨_, m.assignment, rfl⟩
    · exact ⟨_, _, rfl⟩

theorem adopt_ok {log : CostMatrix → List LogEntry} (h : (m.adopt built log).answer = .ok ()) :
    ∃ matrix assignment, built = .ok matrix ∧ solved matrix = .ok assignment ∧
      (m.adopt built log).state = { m with matrix, assignment } := by
  unfold adopt at h ⊢
  cases built with
  | error f => cases h
  | ok matrix =>
    simp only at h ⊢
    cases hsolved : solved matrix with
    | error f => rw [hsolved] at h; cases h
    | ok assignment => exact ⟨matrix, assignment, rfl, hsolved, rfl⟩

theorem reserveBlocks_keeps (m : Matching) (board : Board) :
    ∃ reserved, (m.reserveBlocks board).state = { m with reserved } := by
  unfold reserveBlocks
  split
  · exact ⟨[], rfl⟩
  split
  · exact ⟨[], rfl⟩
  split
  · exact ⟨[], rfl⟩
  · exact ⟨_, rfl⟩

/-- The section of a matching is within the scope, and its blocks hold each of its groups. -/
structure Ready (start : Board) (scope : Scope) (kinds : Origin → Prop)
    (reflection : Option Reflection) (m : Matching) : Prop where
  reflection_eq : m.reflection = reflection
  blockSize_eq : m.blockSize = m.sec.blockSize
  covered : scope.Covers start kinds m.sec

variable {start : Board} {scope : Scope} {kinds : Origin → Prop} {reflection : Option Reflection}

theorem Ready.of_adopted (h : m.Ready start scope kinds reflection) (matrix : CostMatrix)
    (assignment : Assignment) : Ready start scope kinds reflection { m with matrix, assignment } :=
  ⟨h.reflection_eq, h.blockSize_eq, h.covered⟩

/-- A pass over pins is the pin pass with a report. -/
theorem commitPins_eq (m : Matching) (board : Board) (mirrored : Bool) :
    let pass := PinPass.run board m.matrix m.assignment
      { mirrored, strict := m.strict, reflection := m.reflection }
    (m.commitPins board mirrored).state = pass.state ∧
      (m.commitPins board mirrored).answer = pass.answer := by
  intro pass
  rw [commitPins]
  cases ha : pass.answer with
  | error f =>
    rw [Outcome.andThen_of_error ha]
    exact ⟨rfl, rfl⟩
  | ok result =>
    rw [Outcome.andThen_of_ok ha]
    exact ⟨rfl, rfl⟩

/-- The pins of a matrix are eligible for the moves of the pass that it is built for. -/
theorem eligible_columns {mirrored : Bool} {matrix : CostMatrix}
    (hmatrix : m.sec.pinMatrix board.boundary board.pins m.model
      { skipPlaced := true, skipMirrored := !mirrored, reserved := m.reserved } = .ok matrix) :
    ∀ pin ∈ matrix.columns,
      pin ∈ m.sec.pins ∧ board.Eligible (if mirrored then .pair else .single) pin := by
  intro pin hpin
  obtain ⟨-, hcolumns⟩ := Section.openPins_eq_ok.mp (Section.columns_of_pinMatrix hmatrix)
  rw [hcolumns, List.mem_filter] at hpin
  obtain ⟨p, hp, hadmits⟩ := (Option.any_eq_true _ _).mp hpin.2
  simp only [PinFilter.admits, Bool.and_eq_true, Bool.not_eq_true'] at hadmits
  refine ⟨hpin.1, p, hp, hadmits.1.1, fun ho => ?_⟩
  cases mirrored with
  | true => cases ho
  | false => simpa using hadmits.2

/-- Committing pins that were just matched makes moves. -/
theorem commitPins_moves (mirrored : Bool) (h : m.Ready start scope kinds reflection)
    (hkind : kinds (if mirrored then .pair else .single)) (hframe : Frame start board)
    (hmatrix : m.sec.pinMatrix board.boundary board.pins m.model
      { skipPlaced := true, skipMirrored := !mirrored, reserved := m.reserved } = .ok m.matrix) :
    ∃ cs, Moves reflection scope board cs ∧
      (m.commitPins board mirrored).state = board.takeAll cs ∧
      ∀ result, (m.commitPins board mirrored).answer = .ok result → result.commits = cs := by
  let mode : PinPass.Mode := { mirrored, strict := m.strict, reflection := m.reflection }
  have helig : ∀ pin ∈ m.matrix.columns, scope.pins mode.origin pin := by
    intro pin hpin
    obtain ⟨hmem, helig⟩ := eligible_columns hmatrix pin hpin
    exact h.covered.pins pin hmem _ hkind (hframe.eligible helig)
  obtain ⟨cs, hmoves, hstate, hcommits⟩ :=
    PinPass.run_moves board m.assignment mode helig
  obtain ⟨hpassState, hpassAnswer⟩ := m.commitPins_eq board mirrored
  have hreflection : mode.reflection = reflection := h.reflection_eq
  rw [hreflection] at hmoves
  refine ⟨cs, hmoves, hpassState.trans hstate, fun result hresult => ?_⟩
  exact hcommits result (hpassAnswer ▸ hresult)

/-- Committing groups that were just matched makes moves. -/
theorem commitGroups_moves (h : m.Ready start scope kinds reflection)
    (hmatrix : m.groupMatrix board = .ok m.matrix) :
    ∃ cs, Moves reflection scope board cs ∧
      (m.commitGroups board).state.2 = board.takeAll cs ∧
      (m.commitGroups board).state.1.Ready start scope kinds reflection ∧
      ∀ result, (m.commitGroups board).answer = .ok result → result.commits = cs := by
  have hblocks := Section.groupMatrix_blocks hmatrix
  have hgs : ∀ g ∈ m.sec.groups, scope.groups g ∧ g.size ≤ (m.blockSize : Int).toNat := by
    intro g hg
    refine ⟨h.covered.groups g hg, ?_⟩
    rw [h.blockSize_eq]
    exact Section.size_le_blockSize hg
  obtain ⟨cs, room, hmoves, hstate, hcommits⟩ :=
    GroupPass.run_moves hblocks reflection scope m.assignment m.blockSize hgs
  refine ⟨cs, hmoves, ?_⟩
  rw [commitGroups]
  cases ha : (GroupPass.run board m.sec m.matrix m.assignment m.blockSize).answer with
  | error f =>
    simp only [Outcome.mapState, Outcome.andThen, ha, hstate]
    exact ⟨trivial, ⟨h.reflection_eq, h.blockSize_eq, ⟨h.covered.pins, h.covered.groups⟩⟩,
      fun _ hresult => by cases hresult⟩
  | ok result =>
    simp only [Outcome.mapState, Outcome.andThen, ha, hstate]
    refine ⟨trivial, ⟨h.reflection_eq, h.blockSize_eq, ⟨h.covered.pins, h.covered.groups⟩⟩,
      fun result' hresult => ?_⟩
    cases hresult
    exact hcommits result ha

end Matching

end PinRing
